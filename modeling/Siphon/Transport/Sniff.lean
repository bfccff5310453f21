import Siphon.Transport.ProxyProtocol

/-!
# Sniffing the first line of a connection

A connection is classified by what has arrived of it, and when more octets keep the verdict.
-/

namespace Siphon.Transport

open List ProxyProtocol

/-- What a listening socket found on the wire. -/
inductive StreamProtocol where
  | sip
  | webSocket
deriving DecidableEq

/-- The verdict on the octets seen so far. -/
inductive Sniff where
  | needMore
  | decided (protocol : StreamProtocol)
  | garbage
  | proxyHeaderNotEnabled
deriving DecidableEq

/-- Octets of first line tolerated before the sniff gives up. -/
def maxSniffBytes : ℕ := 4096

variable (buffer : Bytes)

/-- A PROXY signature stands at the front. -/
def hasSignature : Bool :=
  v1Prefix.isPrefixOf buffer || v2Signature.isPrefixOf buffer

/-- A control octet other than CR, LF and HT is among the first 512. -/
def hasControl : Bool :=
  (buffer.take 512).any fun byte => byte < 0x20 && byte != 13 && byte != 10 && byte != 9

def firstLine : Option Bytes :=
  let rest := buffer.dropWhile fun byte => byte == 13 || byte == 10
  (Slice.position crlf rest).map rest.take

def protocolOf (line : Bytes) : Option StreamProtocol :=
  if (Utf8.encode "SIP/2.0 ".toList).isPrefixOf line
      || (Utf8.encode " SIP/2.0".toList).isSuffixOf line then some .sip
  else if (Utf8.encode " HTTP/1.1".toList).isSuffixOf line
      || (Utf8.encode " HTTP/1.0".toList).isSuffixOf line then some .webSocket
  else none

def sniffFirstLine : Sniff :=
  if hasSignature buffer then .proxyHeaderNotEnabled
  else if hasControl buffer then .garbage
  else
    match firstLine buffer with
    | none => if maxSniffBytes < buffer.length then .garbage else .needMore
    | some line =>
      match protocolOf line with
      | some protocol => .decided protocol
      | none => .garbage

variable {b s : Bytes}

theorem firstLine_append {line : Bytes} (h : firstLine b = some line) (s : Bytes) :
  firstLine (b ++ s) = some line
  := by
  rw [firstLine] at h ⊢
  obtain ⟨n, hn, rfl⟩ := Option.map_eq_some_iff.mp h
  have hrest : (b ++ s).dropWhile (fun byte => byte == 13 || byte == 10)
      = b.dropWhile (fun byte => byte == 13 || byte == 10) ++ s := by
    rw [dropWhile_append, if_neg]
    intro hempty
    rw [isEmpty_iff.mp hempty] at hn
    cases hn
  have hle := (Slice.position_eq_some_iff.mp hn).1
  rw [hrest, Slice.position_append_of_eq_some hn, Option.map_some, take_append_of_le_length hle]

theorem hasControl_append (h : hasControl b = true) :
  hasControl (b ++ s) = true
  := by
  rw [hasControl, any_eq_true] at h ⊢
  obtain ⟨c, hmem, hcontrol⟩ := h
  refine ⟨c, ?_, hcontrol⟩
  rw [take_append]
  apply mem_append_left _ hmem

theorem sniff_cut_signature (hb : hasSignature b = false) (hbs : hasSignature (b ++ s) = true) :
  sniffFirstLine b = .needMore
    ∨ sniffFirstLine b = .garbage ∧ 4 < b.length ∧ v2Signature <+: b ++ s
  := by
  have hfirst : ∀ b ∈ v1Prefix.inits, hasSignature b = false → sniffFirstLine b = .needMore := by
    decide
  have hsecond : ∀ b ∈ v2Signature.inits, hasSignature b = false →
      sniffFirstLine b = .needMore ∨ sniffFirstLine b = .garbage ∧ 4 < b.length := by
    decide
  have hnot := Bool.or_eq_false_iff.mp hb
  rcases Bool.or_eq_true_iff.mp hbs with h | h
  · rw [List.isPrefixOf_iff_prefix] at h
    rcases List.prefix_or_prefix_of_prefix h (prefix_append b s) with hpre | hpre
    · rw [List.isPrefixOf_iff_prefix.mpr hpre] at hnot
      simp at hnot
    · apply Or.inl (hfirst b ((mem_inits _ _).mpr hpre) hb)
  · rw [List.isPrefixOf_iff_prefix] at h
    rcases List.prefix_or_prefix_of_prefix h (prefix_append b s) with hpre | hpre
    · rw [List.isPrefixOf_iff_prefix.mpr hpre] at hnot
      simp at hnot
    · rcases hsecond b ((mem_inits _ _).mpr hpre) hb with hmore | ⟨hgarbage, hlength⟩
      · apply Or.inl hmore
      · apply Or.inr ⟨hgarbage, hlength, h⟩

/-- More octets change the verdict: they are the rest of a version 2 signature cut after its zero
octet, they put a control octet into the window behind a first line, or they end a first line that
is over the limit. -/
def Overturns (b s : Bytes) : Prop :=
  hasSignature b = false ∧ (4 < b.length ∧ v2Signature <+: b ++ s ∨ hasControl b = false ∧
    match firstLine b with
    | some line => (protocolOf line).isSome ∧ hasControl (b ++ s) = true
    | none => maxSniffBytes < b.length ∧ ((firstLine (b ++ s)).bind protocolOf).isSome)

/-- A verdict stays when more octets arrive if and only if they do not overturn it. -/
theorem sniff_append_iff (h : sniffFirstLine b ≠ .needMore) :
  sniffFirstLine (b ++ s) = sniffFirstLine b ↔ ¬ Overturns b s
  := by
  cases hb : hasSignature b with
  | true =>
    have hbs : hasSignature (b ++ s) = true := by
      rw [hasSignature, Bool.or_eq_true_iff, List.isPrefixOf_iff_prefix, List.isPrefixOf_iff_prefix]
        at hb ⊢
      exact hb.imp (·.trans (prefix_append b s)) (·.trans (prefix_append b s))
    simp [sniffFirstLine, Overturns, hb, hbs]
  | false =>
    cases hbs : hasSignature (b ++ s) with
    | true =>
      rcases sniff_cut_signature hb hbs with hmore | ⟨hgarbage, hlength, hwhole⟩
      · exact absurd hmore h
      · rw [hgarbage, sniffFirstLine, if_pos hbs]
        simp [Overturns, hb, hlength, hwhole]
    | false =>
      have hwhole : ¬ v2Signature <+: b ++ s := by
        rw [← List.isPrefixOf_iff_prefix, (Bool.or_eq_false_iff.mp hbs).2]
        decide
      cases hc : hasControl b with
      | true =>
        simp [sniffFirstLine, Overturns, hb, hbs, hwhole, hc, hasControl_append hc]
      | false =>
        cases hline : firstLine b with
        | some line =>
          have hlines := firstLine_append hline s
          cases hprotocol : protocolOf line <;> cases hcs : hasControl (b ++ s) <;>
            simp [sniffFirstLine, Overturns, hb, hbs, hwhole, hc, hcs, hline, hlines, hprotocol]
        | none =>
          have hlength : maxSniffBytes < b.length := by
            by_contra hshort
            apply h
            simp [sniffFirstLine, hb, hc, hline, hshort]
          have hcs : hasControl (b ++ s) = false := by
            rw [maxSniffBytes] at hlength
            rwa [hasControl, take_append_of_le_length (by omega)]
          have hlong : maxSniffBytes < b.length + s.length := by omega
          cases hlines : firstLine (b ++ s) with
          | none =>
            simp [sniffFirstLine, Overturns, hb, hbs, hwhole, hc, hcs, hline, hlines, hlength,
              hlong]
          | some line =>
            cases hprotocol : protocolOf line <;>
              simp [sniffFirstLine, Overturns, hb, hbs, hwhole, hc, hcs, hline, hlines, hlength,
                hprotocol]

def requestLine : Bytes :=
  Utf8.encode "OPTIONS sip:a SIP/2.0\r\n".toList

/-- A header after the request line changes nothing. -/
theorem requestLine_header_not_overturns :
  ¬ Overturns requestLine (Utf8.encode "Via: b\r\n".toList)
  := (sniff_append_iff (by decide)).mp (by decide)

/-- A control octet after the request line makes SIP garbage, and the rest of a signature makes
garbage a PROXY header. -/
theorem sniff_not_stable :
  sniffFirstLine requestLine = .decided .sip ∧ sniffFirstLine (requestLine ++ [1]) = .garbage
    ∧ sniffFirstLine (v2Signature.take 5) = .garbage
    ∧ sniffFirstLine (v2Signature.take 5 ++ v2Signature.drop 5) = .proxyHeaderNotEnabled
  := by
  decide

end Siphon.Transport
