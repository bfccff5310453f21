import Siphon.Sip.HeaderValues
import Siphon.Sip.UriGrammar

/-!
# Checked user and host parts

What may be put for the user and the host of a URI, and that a name-addr made of such parts is read
back with these parts and no others.
-/

namespace Siphon

open List

/-- Text of IPv6 addresses, as the standard library reads it. -/
class StdIpv6 where
  isIpv6Addr : Text → Bool
  isIpv6Addr_chars : ∀ t, isIpv6Addr t = true →
    ':' ∈ t ∧ ∀ c ∈ t, c.isAlphanum = true ∨ c ∈ [':', '.']

def stripIpv6Brackets (host : Text) : Text :=
  match host with
  | '[' :: h => if h.getLast? = some ']' then h.dropLast else host
  | _ => host

/-- A bare URI host, as a URI carries it. -/
def checkedUriHost [StdIpv6] (value : Text) : Option Text :=
  if !value.any fun c => c == '[' || c == ':' then
    if !value.isEmpty && value.all fun c => c.isAlphanum || c == '-' || c == '.' then some value
    else none
  else
    let unbracketed := stripIpv6Brackets value
    if StdIpv6.isIpv6Addr unbracketed then some (formatSipHost unbracketed) else none

def isAsciiHexdigit (c : Char) : Bool :=
  "0123456789abcdefABCDEF".toList.contains c

/-- A character that stands for itself in a user part. -/
def isUserChar (c : Char) : Bool :=
  c.isAlphanum || "-_.!~*'()".toList.contains c || "&=+$,?/".toList.contains c

/-- Whether a text is made of characters of a user part and escapes. -/
def isUserText : Text → Bool
  | [] => true
  | '%' :: a :: b :: rest => isAsciiHexdigit a && isAsciiHexdigit b && isUserText rest
  | c :: rest => isUserChar c && isUserText rest

/-- A bare URI user part, returned as given. -/
def checkedUriUser (value : Text) : Option Text :=
  if !value.isEmpty && isUserText value then some value else none

/-! ### Reading back -/

/-- A character that may stand in a user part, a host or a port. -/
def isPlain (c : Char) : Bool :=
  c.isAlphanum || "-_.!~*'()&=+$,?/%:[]".toList.contains c

theorem isPlain_spec {c : Char} (h : isPlain c = true) :
  c.toNat < 128 ∧ Text.isWhitespace c = false ∧ isUriEnd c = false
  := by
  have hlt : c.toNat < 128 := by
    rw [isPlain, Bool.or_eq_true, contains_iff_mem] at h
    rcases h with h | h
    · delta Char.isAlphanum Char.isAlpha Char.isUpper Char.isLower Char.isDigit at h
      simp only [Bool.or_eq_true, Bool.and_eq_true, decide_eq_true_eq, UInt32.le_iff_toNat_le] at h
      simp at h
      omega
    · have hall : ("-_.!~*'()&=+$,?/%:[]".toList.all fun c => decide (c.toNat < 128)) = true := by
        decide
      exact of_decide_eq_true (all_eq_true.mp hall c h)
  have htable : ∀ n < 128, isPlain (Char.ofNat n) = true →
      Text.isWhitespace (Char.ofNat n) = false ∧ isUriEnd (Char.ofNat n) = false := by
    decide +kernel
  have hc := htable c.toNat hlt
  rw [Char.ofNat_toNat] at hc
  exact ⟨hlt, hc h⟩

theorem isPlain_of_mem {c : Char} (marks : Text) (hmarks : marks.all isPlain = true)
    (h : c.isAlphanum = true ∨ c ∈ marks) :
  isPlain c = true
  := by
  rcases h with halnum | hmem
  · rw [isPlain, halnum, Bool.true_or]
  · exact all_eq_true.mp hmarks c hmem

theorem isPlain_of_isUserText {t : Text} (h : isUserText t = true) :
  ∀ c ∈ t, isPlain c = true
  := by
  fun_induction isUserText t with
  | case1 => simp
  | case2 a b rest ih =>
    have hhex := all_eq_true.mp (show "0123456789abcdefABCDEF".toList.all isPlain = true by decide)
    simp only [Bool.and_eq_true, isAsciiHexdigit, contains_iff_mem] at h
    simp only [forall_mem_cons]
    exact ⟨rfl, hhex a h.1.1, hhex b h.1.2, ih h.2⟩
  | case3 c rest _ ih =>
    simp only [Bool.and_eq_true, isUserChar, Bool.or_assoc, Bool.or_eq_true, contains_iff_mem,
      ← mem_append] at h
    rw [forall_mem_cons]
    exact ⟨isPlain_of_mem ("-_.!~*'()".toList ++ "&=+$,?/".toList) (by decide) h.1, ih h.2⟩

theorem isHost_of_checkedUriHost [StdText] [StdIpv6] {value host : Text}
    (h : checkedUriHost value = some host) :
  IsHost host ∧ ∀ c ∈ host, isPlain c = true
  := by
  unfold checkedUriHost at h
  split at h
  · split at h
    · rename_i hname
      cases h
      simp only [Bool.and_eq_true, Bool.not_eq_true', isEmpty_eq_false_iff, all_eq_true,
        Bool.or_assoc, Bool.or_eq_true, beq_iff_eq] at hname
      have hplain : ∀ c ∈ value, isPlain c = true := fun c hc =>
        isPlain_of_mem ['-', '.'] (by decide) (by simpa using hname.2 c hc)
      refine ⟨.inr ⟨hname.1, fun c hc => ?_⟩, hplain⟩
      rw [isHostChar, StdText.isAlphanumeric_ascii c (isPlain_spec (hplain c hc)).1]
      rcases hname.2 c hc with halnum | rfl | rfl
      · rw [halnum, Bool.true_or, Bool.true_or]
      · rfl
      · rfl
    · cases h
  · dsimp only at h
    split at h
    · rename_i hip
      cases h
      generalize stripIpv6Brackets value = t at hip
      obtain ⟨hcolon, hchars⟩ := StdIpv6.isIpv6Addr_chars t hip
      have hnot : '[' ∉ t ∧ ']' ∉ t := by
        constructor <;> exact fun hmem => absurd (hchars _ hmem) (by decide)
      have hformat : formatSipHost t = '[' :: (t ++ [']']) := by
        rw [formatSipHost, if_pos ⟨hcolon, fun hhead => hnot.1 (mem_of_mem_head? hhead)⟩]
        rfl
      rw [hformat]
      refine ⟨.inl ⟨t, ne_nil_of_mem hcolon, hnot.2, rfl⟩, ?_⟩
      simp only [forall_mem_cons, forall_mem_append]
      exact ⟨rfl, fun c hc => isPlain_of_mem [':', '.'] (by decide) (hchars c hc), rfl, by simp⟩
    · cases h

theorem sipUriText_of_checked [StdText] {user host : Text} {port : Option ℕ} (hhost : IsHost host)
    (huser : ∀ c ∈ user, isPlain c = true) (hport : ∀ n ∈ port, n < 2 ^ 16)
    (hafter : ∀ c ∈ host ++ displayPort port, isPlain c = true) :
  SipUriText ⟨.sip, some user, host, port, [], none⟩ (user ++ ['@']) (displayPort port) [] []
  := by
  have hsemi : ∀ c ∈ user, decide (c ≠ ';') = true := by
    intro c hc
    rw [decide_eq_true_eq]
    rintro rfl
    exact absurd (huser _ hc) (by decide)
  refine ⟨.inl rfl, .inr ⟨user, ?_, rfl, ?_, ?_⟩, ?_, hhost, ?_, by simp, ?_, ?_, rfl⟩
  · exact fun c hc => (isPlain_spec (huser c hc)).2.2
  · rw [takeWhile_eq_self_iff.mpr hsemi]
  · rw [userParamsOf, dropWhile_eq_nil_iff.mpr hsemi]
    rfl
  · intro hmem
    simp only [displayParams, flatMap_nil, append_nil] at hmem
    exact absurd (hafter _ ((takeWhile_sublist _).subset hmem)) (by decide)
  · cases port with
    | none => exact .inl ⟨rfl, rfl⟩
    | some n => exact .inr ⟨n, _, rfl, hport n rfl, rfl, fun c => Decimal.isDigit_of_mem_display⟩
  · simp [SipUri.headers]
  · exact .inl ⟨rfl, .inl rfl⟩

theorem parse_bracketed [StdText] {text : Text} {uri : SipUri}
    (htext : ∀ c ∈ text, Text.isWhitespace c = false ∧ isUriEnd c = false)
    (hread : parseUri text = .ok ([], uri)) :
  NameAddr.parse ('<' :: (text ++ ['>'])) = .ok ⟨none, uri, none, none, none, []⟩
  := by
  have hinput : Text.trim ('<' :: (text ++ ['>'])) = '<' :: (text ++ ['>']) := by
    apply Slice.trimMatches_eq_self
    · rintro c ⟨⟩
      rfl
    · intro c hc
      rw [← cons_append, getLast?_concat] at hc
      cases hc
      rfl
  have hopen : Slice.splitOnce '<' ('<' :: (text ++ ['>'])) = some ([], text ++ ['>']) :=
    Slice.splitOnce_append (x := []) (by simp) _
  have hclose : Slice.splitOnce '>' (text ++ ['>']) = some (text, []) :=
    Slice.splitOnce_append (fun hmem => absurd (htext _ hmem).2 (by decide)) _
  have htrim : Text.trim text = text :=
    Slice.trimMatches_eq_self (fun c hc => (htext c (mem_of_mem_head? hc)).1)
      fun c hc => (htext c (mem_of_getLast? hc)).1
  simp only [NameAddr.parse, hinput, hopen, hclose, parseUriStandalone, htrim, hread]
  rfl

theorem parse_checked [StdText] [StdIpv6] {userValue hostValue user host : Text}
    (port : Option UInt16) (huser : checkedUriUser userValue = some user)
    (hhost : checkedUriHost hostValue = some host) :
  NameAddr.parse ("<sip:".toList ++ user ++ '@' :: host ++ displayPort (port.map UInt16.toNat)
      ++ ['>'])
    = .ok ⟨none, ⟨.sip, some user, host, port.map UInt16.toNat, [], none⟩, none, none, none, []⟩
  := by
  have huser : ∀ c ∈ user, isPlain c = true := by
    unfold checkedUriUser at huser
    split at huser
    · rename_i hchecked
      cases huser
      exact isPlain_of_isUserText (Bool.and_eq_true_iff.mp hchecked).2
    · cases huser
  obtain ⟨hhost, hplain⟩ := isHost_of_checkedUriHost hhost
  have hport : ∀ n ∈ port.map UInt16.toNat, n < 2 ^ 16 := by
    simp only [Option.mem_map]
    rintro _ ⟨n, -, rfl⟩
    exact n.toNat_lt
  generalize port.map UInt16.toNat = port at hport ⊢
  have hafter : ∀ c ∈ host ++ displayPort port, isPlain c = true := by
    rw [forall_mem_append]
    refine ⟨hplain, ?_⟩
    cases port with
    | none => simp
    | some n =>
    rw [displayPort, forall_mem_cons]
    refine ⟨rfl, fun c hc => isPlain_of_mem [] (by simp) (.inl ?_)⟩
    simp [Char.isAlphanum, Decimal.isDigit_of_mem_display hc]
  have htext := sipUriText_of_checked hhost huser hport hafter
  have hread := parseUri_display (.sip htext) (show AtEnd [] by rintro c ⟨⟩)
  rw [display_sipUri (.inl rfl) hhost] at hread
  have hinput : "<sip:".toList ++ user ++ '@' :: host ++ displayPort port ++ ['>']
      = '<' :: ("sip:".toList ++ (user ++ '@' :: (host ++ displayPort port)) ++ ['>']) := by
    simp
  rw [hinput]
  apply parse_bracketed
  · have hscheme := all_eq_true.mp (show "sip:".toList.all isPlain = true by decide)
    simp only [forall_mem_append, forall_mem_cons]
    refine ⟨fun c hc => (isPlain_spec (hscheme c hc)).2, fun c hc => (isPlain_spec (huser c hc)).2,
      by decide, ?_⟩
    rw [← forall_mem_append]
    exact fun c hc => (isPlain_spec (hafter c hc)).2
  · simpa [SipUri.userDisplay, SipUri.userParams, SipUri.portDisplay, SipUri.headersDisplay,
      SipUri.headers, displayParams, Scheme.asStr] using hread

/-- A host that is an IPv6 address in brackets, where letters, digits and colons with a colon are
taken for one. -/
theorem parse_checked_ipv6 :
  @NameAddr.parse StdText.ascii "<sip:a%20b@[2001:db8::7]:5060>".toList
    = .ok (@NameAddr.mk StdText.ascii none
      ⟨.sip, some "a%20b".toList, "[2001:db8::7]".toList, some 5060, [], none⟩ none none none [])
  := @parse_checked StdText.ascii
    ⟨fun t => t.contains ':' && t.all fun c => c.isAlphanum || c == ':', by
      intro t h
      simp only [Bool.and_eq_true, contains_iff_mem, all_eq_true, Bool.or_eq_true, beq_iff_eq] at h
      exact ⟨h.1, fun c hc => (h.2 c hc).imp_right fun hc => by simp [hc]⟩⟩
    "a%20b".toList "2001:db8::7".toList "a%20b".toList "[2001:db8::7]".toList (some 5060)
    (by decide) (by decide)

end Siphon
