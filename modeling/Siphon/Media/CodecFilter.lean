import Siphon.Library.Decimal

/-!
# Filtering the codecs of a session description

A filter goes through the media sections and keeps the formats whose codec it accepts, with their
`rtpmap` and `fmtp` lines.
-/

namespace Siphon.Media

open List
open Text (eqIgnoreAsciiCase)

structure MediaLine where
  mediaType : Text
  port : ℕ
  portCount : Option ℕ
  protocol : Text
  formats : List Text
  rtpmap : List (ℕ × Text)
  fmtp : List (Text × Text)
  otherAttrs : List Text

structure SdpBody where
  sessionLines : List Text
  mediaSections : List MediaLine

/-- The well-known names of the static payload types. -/
def staticCodecName : ℕ → Option Text
  | 0 => some "PCMU".toList
  | 3 => some "GSM".toList
  | 4 => some "G723".toList
  | 5 => some "DVI4".toList
  | 6 => some "DVI4".toList
  | 7 => some "LPC".toList
  | 8 => some "PCMA".toList
  | 9 => some "G722".toList
  | 10 => some "L16".toList
  | 11 => some "L16".toList
  | 12 => some "QCELP".toList
  | 13 => some "CN".toList
  | 14 => some "MPA".toList
  | 15 => some "G728".toList
  | 18 => some "G729".toList
  | 25 => some "CelB".toList
  | 26 => some "JPEG".toList
  | 28 => some "nv".toList
  | 31 => some "H261".toList
  | 32 => some "MPV".toList
  | 33 => some "MP2T".toList
  | 34 => some "H263".toList
  | _ => none

def payloadType (format : Text) : Option ℕ :=
  Decimal.parse (2 ^ 16) format

/-- The codec a format names. -/
def codecName (rtpmap : List (ℕ × Text)) (format : Text) : Option Text :=
  (payloadType format).bind fun payloadType =>
    match rtpmap.find? fun entry => entry.1 == payloadType with
    | some (_, encoding) => (encoding.splitOn '/').head?
    | none => staticCodecName payloadType

namespace MediaLine

variable (media : MediaLine) (keep : Option Text → Bool)

def isRtp : Bool :=
  (media.protocol.splitOn '/').any (eqIgnoreAsciiCase · "RTP".toList)

/-- The formats whose codec is accepted. -/
def accepted : List Text :=
  media.formats.filter fun format => keep (codecName media.rtpmap format)

/-- Drop the lines of formats that are gone. -/
def retainLines : MediaLine :=
  { media with
    rtpmap := media.rtpmap.filter fun entry =>
      media.formats.any fun format => payloadType format == some entry.1
    fmtp := media.fmtp.filter fun entry => media.formats.contains entry.1 }

/-- Keep the accepted formats; without one, reject the section and keep its first. -/
def retainFormats : MediaLine :=
  if media.formats.any fun format => keep (codecName media.rtpmap format) then
    { media with formats := media.accepted keep }
  else if media.formats ≠ [] then
    { media with formats := media.formats.take 1, port := 0, portCount := none }
  else media

def retainCodecs : MediaLine :=
  if media.isRtp then (media.retainFormats keep).retainLines else media

end MediaLine

/-- A codec is one of those named. -/
def isNamed (names : List Text) (codec : Option Text) : Bool :=
  codec.any fun codec => names.any (eqIgnoreAsciiCase · codec)

namespace SdpBody

variable (sdp : SdpBody)

def retainCodecs (keep : Option Text → Bool) : SdpBody :=
  { sdp with mediaSections := sdp.mediaSections.map (·.retainCodecs keep) }

def filterCodecs (keep : List Text) : SdpBody :=
  sdp.retainCodecs fun codec => isNamed keep codec

def removeCodecs (remove : List Text) : SdpBody :=
  sdp.retainCodecs fun codec => !isNamed remove codec

end SdpBody

namespace MediaLine

variable {media : MediaLine} {keep : Option Text → Bool}

theorem retainFormats_cases (media : MediaLine) (keep : Option Text → Bool) :
  (media.accepted keep ≠ [] ∧ media.retainFormats keep
      = { media with formats := media.accepted keep })
    ∨ media.accepted keep = [] ∧ media.retainFormats keep
      = { media with
          formats := media.formats.take 1
          port := if media.formats = [] then media.port else 0
          portCount := if media.formats = [] then media.portCount else none }
  := by
  have hany : (media.formats.any fun format => keep (codecName media.rtpmap format)) = true
      ↔ media.accepted keep ≠ [] := by
    simp [accepted, filter_eq_nil_iff]
  simp only [retainFormats, hany]
  split
  · exact .inl ⟨‹_›, rfl⟩
  · right
    refine ⟨not_not.mp ‹_›, ?_⟩
    cases hformats : media.formats <;> simp
    rw [← hformats]

/-- The lines of a format that is kept name the codec they named. -/
theorem codecName_retainLines {format : Text} (hmem : format ∈ media.formats) :
  codecName media.retainLines.rtpmap format = codecName media.rtpmap format
  := by
  rw [codecName, codecName]
  cases htype : payloadType format with
  | none => rfl
  | some type =>
    have hfind : media.retainLines.rtpmap.find? (fun entry => entry.1 == type)
        = media.rtpmap.find? fun entry => entry.1 == type := by
      rw [retainLines, find?_filter]
      congr 1
      funext entry
      rw [Bool.decide_and, Bool.decide_eq_true, Bool.decide_eq_true, Bool.and_eq_right_iff_imp,
        beq_iff_eq]
      rintro rfl
      exact any_eq_true.mpr ⟨format, hmem, beq_iff_eq.mpr htype⟩
    rw [Option.bind_some, Option.bind_some, hfind]

theorem accepted_retainLines :
  media.retainLines.accepted keep = media.accepted keep
  := by
  apply filter_congr
  intro format hmem
  rw [codecName_retainLines (show format ∈ media.formats from hmem)]

theorem retainFormats_retained :
  (media.retainFormats keep).retainLines.retainFormats keep = (media.retainFormats keep).retainLines
  := by
  have haccepted : (media.retainFormats keep).accepted keep = media.accepted keep := by
    rcases media.retainFormats_cases keep with ⟨-, heq⟩ | ⟨hnone, heq⟩
    · simp [heq, accepted]
    · rw [hnone, accepted, filter_eq_nil_iff, heq]
      intro format hmem
      exact filter_eq_nil_iff.mp hnone format (mem_of_mem_take hmem)
  rw [← accepted_retainLines] at haccepted
  rcases (media.retainFormats keep).retainLines.retainFormats_cases keep with
    ⟨hsome, hagain⟩ | ⟨hnone, hagain⟩
  · rw [hagain, haccepted]
    rcases media.retainFormats_cases keep with ⟨-, heq⟩ | ⟨hnone, -⟩
    · rw [heq]
      rfl
    · exact absurd (haccepted.trans hnone) hsome
  · rw [hagain]
    rcases media.retainFormats_cases keep with ⟨hsome, -⟩ | ⟨-, heq⟩
    · exact absurd (haccepted.symm.trans hnone) hsome
    · rw [heq]
      cases media.formats <;> simp [retainLines]

theorem retainCodecs_idem :
  (media.retainCodecs keep).retainCodecs keep = media.retainCodecs keep
  := by
  by_cases hrtp : media.isRtp
  · have hrtp' : (media.retainFormats keep).retainLines.isRtp := by
      rcases media.retainFormats_cases keep with ⟨-, heq⟩ | ⟨-, heq⟩ <;> rw [heq] <;> exact hrtp
    simp only [retainCodecs, if_pos hrtp, if_pos hrtp', retainFormats_retained]
    simp [retainLines]
  · simp only [retainCodecs, if_neg hrtp]

/-- What a filter leaves of a section. -/
structure Filtered (keep : Option Text → Bool) (media after : MediaLine) : Prop where
  other : media.isRtp = false → after = media
  formats : media.isRtp = true → after.formats
    = if media.accepted keep = [] then media.formats.take 1 else media.accepted keep
  port : media.isRtp = true → after.port
    = if media.accepted keep = [] ∧ media.formats ≠ [] then 0 else media.port
  rtpmap : media.isRtp = true → after.rtpmap = media.rtpmap.filter fun entry =>
    after.formats.any fun format => payloadType format == some entry.1
  fmtp : media.isRtp = true → after.fmtp
    = media.fmtp.filter fun entry => after.formats.contains entry.1
  some_format : media.formats ≠ [] → after.formats ≠ []
  attrs : after.mediaType = media.mediaType ∧ after.protocol = media.protocol
    ∧ after.otherAttrs = media.otherAttrs

theorem filtered_retainCodecs (media : MediaLine) (keep : Option Text → Bool) :
  Filtered keep media (media.retainCodecs keep)
  := by
  rw [retainCodecs]
  cases hrtp : media.isRtp with
  | false => constructor <;> simp [hrtp]
  | true =>
    rcases media.retainFormats_cases keep with ⟨hsome, heq⟩ | ⟨hnone, heq⟩
    · rw [heq]
      constructor <;> simp [hrtp, hsome, retainLines]
    · rw [heq]
      constructor <;> simp [hrtp, hnone, retainLines, ite_not]

end MediaLine

/-- A filter treats each section in its place, and has no more to do on what it has filtered. -/
def FiltersBy (keep : Option Text → Bool) (filter : SdpBody → SdpBody) : Prop :=
  ∀ sdp, (filter sdp).sessionLines = sdp.sessionLines
    ∧ Forall₂ (MediaLine.Filtered keep) sdp.mediaSections (filter sdp).mediaSections
    ∧ filter (filter sdp) = filter sdp

theorem filtersBy_retainCodecs (keep : Option Text → Bool) :
  FiltersBy keep (·.retainCodecs keep)
  := by
  intro sdp
  refine ⟨rfl, ?_, ?_⟩
  · simp only [SdpBody.retainCodecs, forall₂_map_right_iff, forall₂_same]
    exact fun media _ => media.filtered_retainCodecs keep
  · simp [SdpBody.retainCodecs, MediaLine.retainCodecs_idem]

/-- Filtering by names keeps the named codecs, and removing by names keeps the others. -/
theorem codec_filters (names : List Text) :
  FiltersBy (isNamed names) (·.filterCodecs names)
    ∧ FiltersBy (fun codec => !isNamed names codec) (·.removeCodecs names)
  := ⟨filtersBy_retainCodecs _, filtersBy_retainCodecs _⟩

end Siphon.Media
