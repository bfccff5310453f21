import Siphon.Sip.HeaderBlock
import Siphon.Sip.UriGrammar

/-!
# What the start-line parsers read

The request and status lines the parser accepts, and that it reads back what is printed for
the start line it returned.
-/

namespace Siphon

open List Nom Method

/-! ### Status lines -/

/-- A status line as the parser stores it. -/
structure IsStatusLine (line : StatusLine) : Prop where
  major : line.version.major < 2 ^ 8
  minor : line.version.minor < 2 ^ 8
  statusCode : line.statusCode < 2 ^ 16
  reasonPhrase_head : ∀ c ∈ line.reasonPhrase.head?, isWsp c = false
  reasonPhrase : '\r' ∉ line.reasonPhrase
  generatedLocally : line.generatedLocally = false

/-- What is parsed is a status line that ends with its line. -/
theorem isStatusLine_of_parseStatusLine {start more rest : Text} {line : StatusLine}
    (hstart : '\r' ∉ start) (h : parseStatusLine (start ++ crlfText ++ more) = .ok (rest, line)) :
  IsStatusLine line ∧ rest = more
    ∧ ∃ lead, start = "SIP/".toList ++ lead ++ line.reasonPhrase
  := by
  simp only [parseStatusLine, bind_eq_ok, Prod.exists] at h
  obtain ⟨i₁, version, h₁, i₂, sp, h₂, i₃, code, h₃, i₄, sp', h₄, i₅, reason, h₅, i₆, eol, h₆,
    h⟩ := h
  obtain ⟨a, b, hinput, ha, hb, hmajor, hminor⟩ := exists_of_parseVersion h₁
  obtain ⟨-, rfl, hsp, -⟩ := run1_eq_ok.mp h₂
  obtain ⟨ds, rfl, -, hds, -, hcode⟩ := mapRes_run1_eq_ok.mp h₃
  obtain ⟨-, rfl, hsp', hhead⟩ := run1_eq_ok.mp h₄
  obtain ⟨rfl, hpos⟩ := takeUntil_eq_ok.mp h₅
  cases h
  -- What comes before the reason phrase has no line end, so the phrase ends with the first line.
  have hlead : '\r' ∉ "SIP/".toList ++ (a ++ '.' :: (b ++ (sp ++ (ds ++ sp')))) := by
    have hdigits : '\r' ∉ a ∧ '\r' ∉ b ∧ '\r' ∉ ds :=
      ⟨fun hc => by simpa using ha _ hc, fun hc => by simpa using hb _ hc,
        fun hc => by simpa using hds _ hc⟩
    have hspaces : '\r' ∉ sp ∧ '\r' ∉ sp' :=
      ⟨fun hc => by simpa using hsp _ hc, fun hc => by simpa using hsp' _ hc⟩
    simp [hdigits, hspaces]
  have heq : "SIP/".toList ++ (a ++ '.' :: (b ++ (sp ++ (ds ++ sp')))) ++ (reason ++ i₅)
      = start ++ '\r' :: ('\n' :: more) := by
    rw [show start ++ '\r' :: ('\n' :: more) = start ++ crlfText ++ more by simp [crlfText], hinput]
    simp
  obtain ⟨z, rfl, hz⟩ := Lines.exists_of_append_eq_append_cons hlead heq
  have hzr : '\r' ∉ z := fun hc => hstart (mem_append_right _ hc)
  have hlen : reason.length = z.length := by
    have hposz : Slice.position crlfText (z ++ '\r' :: ['\n'] ++ more) = some z.length :=
      Slice.position_append hzr
    rw [hz, show z ++ '\r' :: ('\n' :: more) = z ++ '\r' :: ['\n'] ++ more by simp, hposz] at hpos
    simpa using hpos.symm
  obtain ⟨rfl, rfl⟩ := append_inj hz hlen
  have hrest : parseCrlf (crlfText ++ more) = .ok (rest, eol) := h₆
  cases hrest
  refine ⟨⟨hmajor, hminor, (Decimal.parse_eq_some hcode).2.2, ?_, hzr, rfl⟩, rfl,
    a ++ '.' :: (b ++ (sp ++ (ds ++ sp'))), rfl⟩
  intro c hc
  apply hhead c
  cases reason with
  | nil => cases hc
  | cons d reason => apply hc

/-- A status line that is printed is parsed again. -/
theorem parseStatusLine_display {line : StatusLine} (h : IsStatusLine line) (tail : Text) :
  parseStatusLine ((StartLine.response line).display ++ tail) = .ok (tail, line)
  := by
  obtain ⟨version, code, reason, loc⟩ := line
  obtain ⟨hmajor, hminor, hcode, hhead, hreason, hloc⟩ := h
  subst hloc
  have hdisplay : (StartLine.response ⟨version, code, reason, false⟩).display ++ tail
      = version.display ++ ([' '] ++ (Decimal.display code ++ ([' '] ++ (reason
        ++ (crlfText ++ tail))))) := by
    simp [StartLine.display, crlfText]
  have hspace (t : Text) (ht : ∀ c ∈ t.head?, isWsp c = false) :
      Nom.space1 ([' '] ++ t) = .ok (t, [' ']) := by
    rw [Nom.space1, run1_eq_ok]
    exact ⟨by simp, rfl, by simp, ht⟩
  have hdigit (t : Text) : ∀ c ∈ (Decimal.display code ++ t).head?, isWsp c = false := by
    intro c hc
    obtain ⟨d, ds, hds⟩ := exists_cons_of_ne_nil (Decimal.display_ne_nil code)
    rw [hds] at hc
    cases hc
    have hisDigit := Decimal.isDigit_of_mem_display (hds ▸ mem_cons_self)
    by_contra hwsp
    simp only [isWsp, Bool.not_eq_false, Bool.or_eq_true, beq_iff_eq] at hwsp
    rcases hwsp with rfl | rfl <;> cases hisDigit
  have hreasonHead : ∀ c ∈ (reason ++ (crlfText ++ tail)).head?, isWsp c = false := by
    cases reason with
    | nil =>
      rintro c ⟨⟩
      rfl
    | cons c reason => apply hhead
  have huntil : Nom.takeUntil crlfText (reason ++ (crlfText ++ tail))
      = .ok (crlfText ++ tail, reason) := by
    rw [takeUntil_eq_ok]
    apply And.intro rfl
    rw [← append_assoc]
    apply Slice.position_append hreason
  simp only [parseStatusLine, bind_eq_ok, Prod.exists, hdisplay]
  refine ⟨_, _, parseVersion_display hmajor hminor ?_, _, _, hspace _ (hdigit _), _, _,
    mapRes_run1_display hcode ?_, _, _, hspace _ hreasonHead, _, _, huntil, _, _,
    parseCrlf_crlfText tail, rfl⟩
  · rintro c ⟨⟩
    rfl
  · rintro c ⟨⟩
    rfl

/-! ### Methods -/

theorem ascii_known {m : Method} (h : m ∈ known) :
  ∀ c ∈ m.asStr, c.toNat < 128 ∧ c.isAlphanum = true
  := by
  have hall : ∀ m ∈ known,
      m.asStr.all (fun c => decide (c.toNat < 128) && c.isAlphanum) = true := by
    decide
  intro c hc
  simpa using all_eq_true.mp (hall m h) c hc

section

variable [StdText]

theorem toUppercase_asStr_known {m : Method} (h : m ∈ known) :
  StdText.toUppercase m.asStr = m.asStr
  := by
  have hupper : ∀ m ∈ known, m.asStr.map Char.toUpper = m.asStr := by decide
  rw [StdText.toUppercase_ascii _ fun c hc => (ascii_known h c hc).1, hupper m h]

/-- A method is a known one or stored as written. -/
theorem fromStr_eq (s : Text) :
  fromStr s ∈ known ∨ fromStr s = .extension s
  := by
  rw [fromStr]
  cases hfind : known.find? fun m => m.asStr == StdText.toUppercase s with
  | none => simp
  | some m => apply Or.inl (mem_of_find?_eq_some hfind)

/-- A method that is printed is read again. -/
theorem fromStr_asStr (s : Text) :
  fromStr (fromStr s).asStr = fromStr s
  := by
  rcases fromStr_eq s with hknown | hext
  · have hfind : ∀ m ∈ known,
        (known.find? fun n => n.asStr == m.asStr).getD (.extension m.asStr) = m := by
      decide +kernel
    rw [fromStr, toUppercase_asStr_known hknown, hfind _ hknown]
  · apply congrArg (fun m => fromStr m.asStr) hext

theorem isMethodChar_ascii {c : Char} (h : c.toNat < 128) :
  isMethodChar c
    = (c.isAlphanum || decide (c ∈ ['-', '.', '!', '%', '*', '_', '+', '\x60', '\x27', '~']))
  := by
  rw [isMethodChar, StdText.isAlphanumeric_ascii c h]

theorem isMethodChar_of_delimiter {c : Char} (h : c ∈ [' ', '/', '\r', '\n']) :
  isMethodChar c = false
  := by
  simp only [mem_cons, not_mem_nil, or_false] at h
  rcases h with rfl | rfl | rfl | rfl <;> rw [isMethodChar_ascii (by decide)] <;> rfl

theorem isMethodChar_of_mem_asStr {s : Text} (hs : ∀ c ∈ s, isMethodChar c = true) :
  ∀ c ∈ (fromStr s).asStr, isMethodChar c = true
  := by
  intro c hc
  rcases fromStr_eq s with hknown | hext
  · obtain ⟨hlt, halnum⟩ := ascii_known hknown c hc
    rw [isMethodChar_ascii hlt, halnum, Bool.true_or]
  · rw [hext] at hc
    apply hs c hc

theorem asStr_ne_nil {s : Text} (hs : s ≠ []) :
  (fromStr s).asStr ≠ []
  := by
  rcases fromStr_eq s with hknown | hext
  · generalize fromStr s = m at hknown
    revert m
    decide
  · rwa [hext]

/-! ### Request lines -/

variable {input rest : Text} {line : RequestLine}

/-- The request lines that are parsed, by parts. -/
theorem parseRequestLine_eq_ok :
  parseRequestLine input = .ok (rest, line)
    ↔ ∃ methodStr afterMethod afterUri afterVersion eol, methodStr ≠ []
      ∧ input = methodStr ++ ' ' :: afterMethod ∧ (∀ c ∈ methodStr, isMethodChar c = true)
      ∧ line.method = fromStr methodStr
      ∧ parseUri afterMethod = .ok (' ' :: afterUri, line.requestUri)
      ∧ parseVersion afterUri = .ok (afterVersion, line.version)
      ∧ parseCrlf afterVersion = .ok (rest, eol)
  := by
  simp only [parseRequestLine, bind_eq_ok, Prod.exists]
  constructor
  · rintro ⟨i₁, methodStr, h₁, i₂, sp, h₂, i₃, uri, h₃, i₄, sp', h₄, i₅, version, h₅, i₆, eol, h₆,
      h⟩
    obtain ⟨hne, rfl, hmethod, -⟩ := takeWhile1_eq_ok.mp h₁
    obtain ⟨rfl, -⟩ := char_eq_ok.mp h₂
    obtain ⟨rfl, -⟩ := char_eq_ok.mp h₄
    cases h
    exact ⟨methodStr, i₂, i₄, i₅, eol, hne, rfl, hmethod, rfl, h₃, h₅, h₆⟩
  · rintro ⟨methodStr, afterMethod, afterUri, afterVersion, eol, hne, rfl, hmethod, hm, huri,
      hversion, heol⟩
    refine ⟨' ' :: afterMethod, methodStr, ?_, afterMethod, ' ', char_eq_ok.mpr ⟨rfl, rfl⟩, _, _,
      huri, afterUri, ' ', char_eq_ok.mpr ⟨rfl, rfl⟩, _, _, hversion, _, _, heol, ?_⟩
    · rw [takeWhile1_eq_ok]
      refine ⟨hne, rfl, hmethod, ?_⟩
      rintro c ⟨⟩
      apply isMethodChar_of_delimiter (by decide)
    · rw [← hm]
      rfl

/-- A request line as the parser stores it. -/
structure IsRequestLine (line : RequestLine) : Prop where
  method : ∃ s, s ≠ [] ∧ (∀ c ∈ s, isMethodChar c = true) ∧ line.method = fromStr s
  requestUri : IsUri line.requestUri
  major : line.version.major < 2 ^ 8
  minor : line.version.minor < 2 ^ 8

theorem isRequestLine_of_parseRequestLine (h : parseRequestLine input = .ok (rest, line)) :
  IsRequestLine line
  := by
  obtain ⟨methodStr, _, _, _, _, hne, -, hmethod, hm, huri, hversion, -⟩ :=
    parseRequestLine_eq_ok.mp h
  obtain ⟨_, _, -, -, -, hmajor, hminor⟩ := exists_of_parseVersion hversion
  exact ⟨⟨methodStr, hne, hmethod, hm⟩, isUri_of_parseUri huri, hmajor, hminor⟩

/-- A request line that is printed is parsed again. -/
theorem parseRequestLine_display (h : IsRequestLine line) (tail : Text) :
  parseRequestLine ((StartLine.request line).display ++ tail) = .ok (tail, line)
  := by
  obtain ⟨s, hne, hs, hm⟩ := h.method
  rw [parseRequestLine_eq_ok]
  refine ⟨line.method.asStr, line.requestUri.display ++ ' ' :: (line.version.display
    ++ (crlfText ++ tail)), line.version.display ++ (crlfText ++ tail), crlfText ++ tail, crlfText,
    ?_, ?_, ?_, ?_, parseUri_display h.requestUri (by rintro c ⟨⟩; rfl),
    parseVersion_display h.major h.minor ?_, parseCrlf_crlfText tail⟩
  · rw [hm]
    apply asStr_ne_nil hne
  · simp [StartLine.display, crlfText]
  · rw [hm]
    apply isMethodChar_of_mem_asStr hs
  · rw [hm, fromStr_asStr]
  · rintro c ⟨⟩
    rfl

/-! ### Start lines -/

/-- No status line is a request line. -/
theorem parseRequestLine_version (after : Text) :
  ∃ e, parseRequestLine ("SIP/".toList ++ after) = .error e
  := by
  cases h : parseRequestLine ("SIP/".toList ++ after) with
  | error e => exact ⟨e, rfl⟩
  | ok x =>
  obtain ⟨methodStr, afterMethod, _, _, _, -, hinput, hmethod, -⟩ := parseRequestLine_eq_ok.mp h
  have hlead : ' ' ∉ "SIP/".toList := by decide
  obtain ⟨z, hz, -⟩ := Lines.exists_of_append_eq_append_cons hlead hinput
  have hmem := hmethod '/' (by simp [hz])
  rw [isMethodChar_of_delimiter (by decide)] at hmem
  cases hmem

variable {line : StartLine}

theorem parseStartLine_eq_ok :
  parseStartLine input = .ok (rest, line)
    ↔ (∃ req, line = .request req ∧ parseRequestLine input = .ok (rest, req))
      ∨ ∃ resp, line = .response resp ∧ parseStatusLine input = .ok (rest, resp)
  := by
  rw [parseStartLine, alt_eq_ok, map_eq_ok, map_eq_ok]
  constructor
  · rintro (⟨req, h, rfl⟩ | ⟨-, resp, h, rfl⟩)
    · exact .inl ⟨req, rfl, h⟩
    · exact .inr ⟨resp, rfl, h⟩
  rintro (⟨req, rfl, h⟩ | ⟨resp, rfl, h⟩)
  · exact .inl ⟨req, h, rfl⟩
  refine .inr ⟨?_, resp, h, rfl⟩
  simp only [parseStatusLine, bind_eq_ok, Prod.exists] at h
  obtain ⟨_, _, hversion, -⟩ := h
  obtain ⟨a, b, rfl, -⟩ := exists_of_parseVersion hversion
  obtain ⟨e, he⟩ := parseRequestLine_version (a ++ '.' :: (b ++ _))
  refine ⟨e, ?_⟩
  rw [Nom.map, he]
  rfl

/-- A start line as the parser stores it. -/
def IsStartLine : StartLine → Prop
  | .request line => IsRequestLine line
  | .response line => IsStatusLine line

theorem isStartLine_of_parseStartLine {start more : Text} (hstart : '\r' ∉ start)
    (h : parseStartLine (start ++ crlfText ++ more) = .ok (rest, line)) :
  IsStartLine line
  := by
  rcases parseStartLine_eq_ok.mp h with ⟨req, rfl, hreq⟩ | ⟨resp, rfl, hresp⟩
  · apply isRequestLine_of_parseRequestLine hreq
  · apply (isStatusLine_of_parseStatusLine hstart hresp).1

/-- A start line that is printed is parsed again. -/
theorem parseStartLine_display (h : IsStartLine line) (tail : Text) :
  parseStartLine (line.display ++ tail) = .ok (tail, line)
  := by
  rw [parseStartLine_eq_ok]
  cases line with
  | request line => exact .inl ⟨line, rfl, parseRequestLine_display h tail⟩
  | response line => exact .inr ⟨line, rfl, parseStatusLine_display h tail⟩

end

end Siphon
