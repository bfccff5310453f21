import Siphon.Auth.DigestFields
import Siphon.Library.Nom

/-!
# What the search for a field finds

A field is read after the first occurrence of its name in the lower-case copy that is taken for it.
-/

namespace Siphon.Auth

open List Utf8 DigestFields Nom
open DigestField (required qop)

/-! ### The first occurrence that is taken -/

/-- The first occurrence of a pattern that is taken. -/
structure FirstAccepted (needle : Text) (accepts : Text → Bool) (lower before after : Text) :
    Prop where
  split : lower = before ++ needle ++ after
  accepted : accepts before = true
  first : ∀ b a, lower = b ++ needle ++ a → accepts b = true → before.length ≤ b.length

theorem agree_isAsciiAlphanumericByte :
  Utf8.Agree isAsciiAlphanumericByte Char.isAlphanum
  := by
  refine .of_table (by decide) (by decide +kernel) ?_
  intro c hc
  delta Char.isAlphanum Char.isAlpha Char.isUpper Char.isLower Char.isDigit
  simp only [UInt32.le_iff_toNat_le, Bool.or_eq_false_iff, Bool.and_eq_false_iff,
    decide_eq_false_iff_not]
  simp
  omega

theorem alphanumericBefore_append {a : Text} (ha : a ≠ []) (r : Text) :
  alphanumericBefore (a ++ r) (len a) = a.getLast?.any Char.isAlphanum
  := by
  have hne : encode a ≠ [] := fun h => ha (encode_eq_nil.mp h)
  have hpos : 0 < (encode a).length := length_pos_iff.mpr hne
  rw [alphanumericBefore, encode_append, len,
    List.getElem?_append_left (Nat.sub_lt hpos Nat.one_pos), ← List.getLast?_eq_getElem?,
    getLast?_encode_any agree_isAsciiAlphanumericByte]

theorem preceded_iff (a r : Text) :
  (len a = 0 ∨ ¬ alphanumericBefore (a ++ r) (len a) = true)
    ↔ unpreceded a = true
  := by
  rw [unpreceded]
  cases a with
  | nil => simp
  | cons c a =>
  have hpos := c.utf8Size_pos
  have hlen : len (c :: a) ≠ 0 := by
    rw [len_cons]
    omega
  rw [or_iff_right hlen, alphanumericBefore_append (cons_ne_nil c a)]
  simp

/-- The loop finds the first occurrence that no letter or digit precedes. -/
theorem nextParam_cases {name lower : Text} (hname : '=' ∉ name) (authValue : Text) {fuel : ℕ}
    {x y : Text} (hsplit : lower = x ++ y) (hfuel : y.length < fuel)
    (hskip : ∀ b a, lower = b ++ (name ++ ['=']) ++ a → unpreceded b = true → x.length ≤ b.length) :
  let result := nextParam (name ++ ['=']) lower authValue fuel (len x)
  (∃ before after, FirstAccepted (name ++ ['=']) unpreceded lower before after
      ∧ result = readAt authValue (len (before ++ (name ++ ['=']))))
    ∨ (∀ b a, lower = b ++ (name ++ ['=']) ++ a → unpreceded b = false) ∧ result = .ok none
  := by
  induction fuel generalizing x y with
  | zero => omega
  | succ fuel ih =>
  have hslice : sliceFrom lower (len x) = some y :=
    sliceFrom_eq_some_iff.mpr ⟨x, hsplit, rfl⟩
  -- An occurrence that is taken lies behind `x`, so it is one of `y`.
  have hbehind : ∀ b a, lower = b ++ (name ++ ['=']) ++ a → unpreceded b = true →
      ∃ b', b = x ++ b' ∧ y = b' ++ (name ++ ['=']) ++ a :=
    fun b a hoccurs haccepted =>
      Slice.occurrence_of_append (hsplit.symm.trans hoccurs) (hskip b a hoccurs haccepted)
  simp only [nextParam, hslice]
  rcases find_cases (name ++ ['=']) y with ⟨a, b, hy, hfind, hmin⟩ | ⟨hfind, hno⟩
  · rw [hfind]
    have hlower : lower = x ++ a ++ (name ++ ['=']) ++ b := by
      rw [hsplit, hy]
      simp only [append_assoc]
    have hcond := preceded_iff (x ++ a) ((name ++ ['=']) ++ b)
    rw [← append_assoc (x ++ a), ← hlower, len_append] at hcond
    have hlen : len x + len a + len (name ++ ['='])
        = len (x ++ a ++ (name ++ ['='])) := by
      rw [len_append (x ++ a), len_append x]
    dsimp only
    rw [hlen]
    split
    · rename_i hhere
      refine .inl ⟨x ++ a, b, ⟨hlower, hcond.mp hhere, ?_⟩, rfl⟩
      intro b' a' hoccurs haccepted
      obtain ⟨b'', rfl, hy'⟩ := hbehind b' a' hoccurs haccepted
      have := hmin b'' a' hy'
      simp only [length_append]
      omega
    · rename_i hhere
      refine ih hlower ?_ ?_
      · rw [hy] at hfuel
        simp only [length_append, length_singleton] at hfuel
        omega
      intro b' a' hoccurs haccepted
      obtain ⟨b'', rfl, hy'⟩ := hbehind b' a' hoccurs haccepted
      have hle := hmin b'' a' hy'
      have hne : a.length ≠ b''.length := by
        intro hlen
        rw [hy] at hy'
        obtain ⟨rfl, -⟩ := append_inj (by simpa using hy') hlen
        exact hhere (hcond.mpr haccepted)
      have hover := Slice.length_le_of_occurrences hname (hy.symm.trans hy') (by omega)
      simp only [length_append] at hover ⊢
      omega
  · rw [hfind]
    refine .inr ⟨?_, rfl⟩
    intro b a hoccurs
    rw [← Bool.not_eq_true]
    intro haccepted
    obtain ⟨b', -, hy⟩ := hbehind b a hoccurs haccepted
    exact hno b' a hy

section

variable [StdText] (authValue : Text)

/-- What a search comes to: the value is read behind the first occurrence that is taken, if there is
one. -/
def Finds (needle : Text) (accepts : Text → Bool) (result : Except Panic (Option Text)) : Prop :=
  (∃ before after, FirstAccepted needle accepts (StdText.toLowercase authValue) before after
      ∧ result = readAt authValue (len (before ++ needle)))
    ∨ (∀ b a, StdText.toLowercase authValue = b ++ needle ++ a → accepts b = false)
      ∧ result = .ok none

theorem extractNonceField_finds :
  Finds authValue "nonce=".toList unpreceded (extractNonceField authValue)
  := by
  have hcases := @nextParam_cases "nonce".toList _ (by decide) authValue _ _ _
    (nil_append (StdText.toLowercase authValue)).symm (Nat.lt_succ_self _)
    fun b a _ _ => Nat.zero_le _
  exact hcases

theorem extractFirst_finds {needle : Text} (hlen : len needle = 9) :
  Finds authValue needle (fun _ => true) (extractFirst authValue needle)
  := by
  rcases find_cases needle (StdText.toLowercase authValue) with
    ⟨a, b, hsplit, hfind, hmin⟩ | ⟨hfind, hno⟩
  · refine .inl ⟨a, b, ⟨hsplit, rfl, fun b' a' h _ => hmin b' a' h⟩, ?_⟩
    rw [extractFirst, hfind, len_append, hlen]
  · refine .inr ⟨fun b a h => absurd h (hno b a), ?_⟩
    rw [extractFirst, hfind]

theorem extractDigestParam_finds {param : Text} (hparam : '=' ∉ param) :
  Finds authValue (param ++ ['=']) unpreceded (extractDigestParam authValue param)
  := by
  rw [extractDigestParam]
  rcases find_cases (param ++ ['=']) (StdText.toLowercase authValue) with
    ⟨a, b, hsplit, hfind, hmin⟩ | ⟨hfind, hno⟩
  · have hcond := preceded_iff a ((param ++ ['=']) ++ b)
    rw [← append_assoc a, ← hsplit] at hcond
    simp only [hfind]
    rw [← len_append]
    split
    · rename_i hpreceded
      have hnot : unpreceded a ≠ true := by
        rw [Ne, ← hcond]
        rintro (hstart | hother)
        · omega
        · exact hother hpreceded.2
      refine nextParam_cases hparam authValue hsplit ?_ ?_
      · rw [hsplit]
        simp only [length_append, length_singleton]
        omega
      intro b' a' hoccurs haccepted
      have hle := hmin b' a' hoccurs
      have hne : a.length ≠ b'.length := by
        intro hlen
        have hboth := hsplit.symm.trans hoccurs
        obtain ⟨rfl, -⟩ := append_inj (by simpa using hboth) hlen
        exact hnot haccepted
      exact Slice.length_le_of_occurrences hparam (hsplit.symm.trans hoccurs) (by omega)
    · rename_i hhere
      have haccepted : unpreceded a = true := by
        rw [← hcond]
        by_contra hnot
        rw [not_or, not_not] at hnot
        exact hhere ⟨Nat.pos_of_ne_zero hnot.1, hnot.2⟩
      exact .inl ⟨a, b, ⟨hsplit, haccepted, fun b' a' h _ => hmin b' a' h⟩, rfl⟩
  · simp only [hfind]
    exact .inr ⟨fun b a h => absurd h (hno b a), rfl⟩

theorem read_finds (field : DigestField) :
  Finds authValue field.needle field.accepts (field.read authValue)
  := by
  cases field with
  | username | response => exact extractFirst_finds authValue (by decide)
  | nonce => exact extractNonceField_finds authValue
  | algorithm | realm | uri | qop | cnonce | nc =>
    exact extractDigestParam_finds authValue (by decide)

/-! ### Reading and cutting -/

/-- The value that a text starts with, if it starts with one. -/
inductive Denotes : Text → Option Text → Prop where
  | quoted {value rest : Text} (closed : '"' ∉ value) :
      Denotes ('"' :: (value ++ '"' :: rest)) (some value)
  | unclosed {rest : Text} (open' : '"' ∉ rest) : Denotes ('"' :: rest) none
  | bare {rest : Text} (unquoted : rest.head? ≠ some '"') :
      Denotes rest (some (Text.trim (rest.takeWhile (· ≠ ','))))

variable {value : Option Text}

omit [StdText] in
theorem parseParamValue_eq_iff {rest : Text} :
  parseParamValue rest = value ↔ Denotes rest value
  := by
  constructor
  · rintro rfl
    fun_cases parseParamValue rest with
    | case1 after =>
      by_cases hmem : '"' ∈ after
      · obtain ⟨value, more, rfl, hvalue⟩ := eq_append_cons_of_mem hmem
        rw [Slice.splitOnce_append hvalue]
        exact .quoted hvalue
      · rw [Slice.splitOnce_of_not_mem hmem]
        exact .unclosed hmem
    | case2 rest hrest =>
      refine .bare ?_
      intro hhead
      obtain ⟨after, rfl⟩ := List.head?_eq_some_iff.mp hhead
      exact hrest after rfl
  · intro h
    cases h with
    | quoted closed => rw [parseParamValue, Slice.splitOnce_append closed, Option.map_some]
    | unclosed open' => rw [parseParamValue, Slice.splitOnce_of_not_mem open', Option.map_none]
    | bare unquoted =>
      rw [parseParamValue]
      rintro after rfl
      exact unquoted rfl

/-- What a field is read as: what the value has where the first occurrence of the name that is taken
ends in the lower-case copy. -/
inductive Reads (field : DigestField) : Option Text → Prop where
  | absent (none' : ∀ b a, StdText.toLowercase authValue = b ++ field.needle ++ a →
      field.accepts b = false) : Reads field none
  | found {before after x rest : Text} {value : Option Text}
      (first : FirstAccepted field.needle field.accepts (StdText.toLowercase authValue) before
        after)
      (cut : authValue = x ++ rest) (offset : len x = len (before ++ field.needle))
      (denotes : Denotes rest value) : Reads field value

/-- The value can be cut where the first occurrence of the name that is taken ends in the lower-case
copy. -/
def Cuttable (field : DigestField) : Prop :=
  ∀ before after,
    FirstAccepted field.needle field.accepts (StdText.toLowercase authValue) before after →
    ∃ x rest, authValue = x ++ rest ∧ len x = len (before ++ field.needle)

omit [StdText] in
theorem FirstAccepted.unique {needle lower before after b a : Text} {accepts : Text → Bool}
    (h : FirstAccepted needle accepts lower before after)
    (h' : FirstAccepted needle accepts lower b a) :
  before = b ∧ after = a
  := by
  have hlen : before.length = b.length :=
    le_antisymm (h.first b a h'.split h'.accepted) (h'.first before after h.split h.accepted)
  have hboth := h.split.symm.trans h'.split
  obtain ⟨hbefore, hrest⟩ := append_inj (by simpa using hboth) hlen
  exact ⟨hbefore, append_cancel_left hrest⟩

omit [StdText] in
theorem readAt_eq_ok_iff {offset : ℕ} :
  readAt authValue offset = .ok value
    ↔ ∃ x rest, authValue = x ++ rest ∧ len x = offset ∧ Denotes rest value
  := by
  rw [readAt]
  cases hslice : sliceFrom authValue offset with
  | none =>
    constructor
    · rintro ⟨⟩
    · rintro ⟨x, rest, hcut, hlen, -⟩
      rw [sliceFrom_eq_some_iff.mpr ⟨x, hcut, hlen⟩] at hslice
      cases hslice
  | some rest =>
    constructor
    · intro h
      obtain ⟨x, hcut, hlen⟩ := sliceFrom_eq_some_iff.mp hslice
      exact ⟨x, rest, hcut, hlen, parseParamValue_eq_iff.mp (Except.ok.inj h)⟩
    · rintro ⟨x, rest', hcut, hlen, hdenotes⟩
      rw [sliceFrom_eq_some_iff.mpr ⟨x, hcut, hlen⟩] at hslice
      cases hslice
      exact congrArg Except.ok (parseParamValue_eq_iff.mpr hdenotes)

theorem read_eq_ok_iff {field : DigestField} :
  field.read authValue = .ok value ↔ Reads authValue field value
  := by
  rcases read_finds authValue field with ⟨before, after, hfirst, hread⟩ | ⟨hnone, hread⟩
  · rw [hread, readAt_eq_ok_iff]
    constructor
    · rintro ⟨x, rest, hcut, hlen, hdenotes⟩
      exact .found hfirst hcut hlen hdenotes
    intro h
    cases h with
    | absent hnone =>
      have := hnone before after hfirst.split
      rw [hfirst.accepted] at this
      cases this
    | found hother hcut hlen hdenotes =>
      obtain ⟨rfl, rfl⟩ := hfirst.unique hother
      exact ⟨_, _, hcut, hlen, hdenotes⟩
  · rw [hread]
    constructor
    · rintro ⟨⟩
      exact .absent hnone
    intro h
    cases h with
    | absent _ => rfl
    | found hfirst _ _ _ =>
    have := hnone _ _ hfirst.split
    rw [hfirst.accepted] at this
    cases this

theorem read_ok_iff (field : DigestField) :
  (∃ value, field.read authValue = .ok value) ↔ Cuttable authValue field
  := by
  rcases read_finds authValue field with ⟨before, after, hfirst, hread⟩ | ⟨hnone, hread⟩
  · rw [hread]
    constructor
    · rintro ⟨value, hvalue⟩ b a hother
      obtain ⟨rfl, rfl⟩ := hfirst.unique hother
      obtain ⟨x, rest, hcut, hlen, -⟩ := (readAt_eq_ok_iff authValue).mp hvalue
      exact ⟨x, rest, hcut, hlen⟩
    · intro h
      obtain ⟨x, rest, hcut, hlen⟩ := h before after hfirst
      exact ⟨_, (readAt_eq_ok_iff authValue).mpr
        ⟨x, rest, hcut, hlen, parseParamValue_eq_iff.mp rfl⟩⟩
  · refine iff_of_true ⟨none, hread⟩ ?_
    intro before after hfirst
    have := hnone before after hfirst.split
    rw [hfirst.accepted] at this
    cases this

/-- A character and its lower case, with as many octets. -/
def Lowers (c d : Char) : Prop :=
  d.utf8Size = c.utf8Size ∧ (c.toNat < 128 → d = c.toLower)

/-- Every character of the value has as many octets in lower case. -/
def Aligned : Prop :=
  List.Forall₂ Lowers authValue (StdText.toLowercase authValue)

omit [StdText] in
theorem len_eq_of_lowers {s t : Text} (h : List.Forall₂ Lowers s t) :
  len s = len t
  := by
  induction h with
  | nil => rfl
  | cons hhead _ ih => rw [len_cons, len_cons, hhead.1, ih]

variable {authValue} in
theorem Aligned.cuttable (h : Aligned authValue) (field : DigestField) :
  Cuttable authValue field
  := by
  intro before after hfirst
  rw [Aligned, hfirst.split] at h
  have htake := List.forall₂_take_append _ _ _ h
  exact ⟨_, _, (take_append_drop _ _).symm, len_eq_of_lowers htake⟩

/-! ### Reading never panics on what can be cut -/

theorem parse_eq_read :
  parse authValue = do
    let algorithm ← DigestField.algorithm.read authValue
    let some username ← DigestField.username.read authValue | return none
    let some realm ← DigestField.realm.read authValue | return none
    let some nonce ← DigestField.nonce.read authValue | return none
    let some uri ← DigestField.uri.read authValue | return none
    let some response ← DigestField.response.read authValue | return none
    let qop ← qop.read authValue
    let cnonce ← DigestField.cnonce.read authValue
    let nc ← DigestField.nc.read authValue
    return some { username, realm, nonce, uri, response, qop, cnonce, nc,
                  algorithm := parseAlgorithm algorithm }
  := rfl

theorem parse_eq_some_iff {fields : DigestFields} :
  parse authValue = .ok (some fields)
    ↔ ∃ algorithm, DigestField.algorithm.read authValue = .ok algorithm
      ∧ fields.algorithm = parseAlgorithm algorithm
      ∧ DigestField.username.read authValue = .ok (some fields.username)
      ∧ DigestField.realm.read authValue = .ok (some fields.realm)
      ∧ DigestField.nonce.read authValue = .ok (some fields.nonce)
      ∧ DigestField.uri.read authValue = .ok (some fields.uri)
      ∧ DigestField.response.read authValue = .ok (some fields.response)
      ∧ qop.read authValue = .ok fields.qop
      ∧ DigestField.cnonce.read authValue = .ok fields.cnonce
      ∧ DigestField.nc.read authValue = .ok fields.nc
  := by
  rw [parse_eq_read]
  constructor
  · intro h
    obtain ⟨algorithm, halgorithm, h⟩ := bind_eq_ok.mp h
    obtain ⟨_ | username, husername, h⟩ := bind_eq_ok.mp h
    · cases h
    obtain ⟨_ | realm, hrealm, h⟩ := bind_eq_ok.mp h
    · cases h
    obtain ⟨_ | nonce, hnonce, h⟩ := bind_eq_ok.mp h
    · cases h
    obtain ⟨_ | uri, huri, h⟩ := bind_eq_ok.mp h
    · cases h
    obtain ⟨_ | response, hresponse, h⟩ := bind_eq_ok.mp h
    · cases h
    obtain ⟨qop, hqop, h⟩ := bind_eq_ok.mp h
    obtain ⟨cnonce, hcnonce, h⟩ := bind_eq_ok.mp h
    obtain ⟨nc, hnc, h⟩ := bind_eq_ok.mp h
    cases h
    exact ⟨algorithm, halgorithm, rfl, husername, hrealm, hnonce, huri, hresponse, hqop, hcnonce,
      hnc⟩
  · rintro ⟨algorithm, halgorithm, hfields, husername, hrealm, hnonce, huri, hresponse, hqop,
      hcnonce, hnc⟩
    rw [halgorithm, husername, hrealm, hnonce, huri, hresponse, hqop, hcnonce, hnc]
    obtain ⟨⟩ := fields
    cases hfields
    rfl

/-- All fields are read in turn, up to a required one that is not there. -/
theorem parse_ok_iff :
  (∃ fields, parse authValue = .ok fields)
    ↔ ∀ field : DigestField,
      (∀ earlier ∈ field.required, ∃ value, earlier.read authValue = .ok (some value)) →
      ∃ value, field.read authValue = .ok value
  := by
  rw [parse_eq_read]
  generalize DigestField.read authValue = read
  constructor
  · rintro ⟨fields, h⟩ field hrequired
    have hmissing : ∀ missing, read missing = .ok none → missing ∉ field.required := by
      intro missing hnone hmem
      obtain ⟨value, hvalue⟩ := hrequired missing hmem
      rw [hnone] at hvalue
      cases hvalue
    -- A field that is missing is required for those that are not read.
    obtain ⟨algorithm, halgorithm, h⟩ := bind_eq_ok.mp h
    obtain ⟨_ | username, husername, h⟩ := bind_eq_ok.mp h
    · have := hmissing _ husername
      cases field <;> first | exact ⟨_, ‹_›⟩ | simp [required] at this
    obtain ⟨_ | realm, hrealm, h⟩ := bind_eq_ok.mp h
    · have := hmissing _ hrealm
      cases field <;> first | exact ⟨_, ‹_›⟩ | simp [required] at this
    obtain ⟨_ | nonce, hnonce, h⟩ := bind_eq_ok.mp h
    · have := hmissing _ hnonce
      cases field <;> first | exact ⟨_, ‹_›⟩ | simp [required] at this
    obtain ⟨_ | uri, huri, h⟩ := bind_eq_ok.mp h
    · have := hmissing _ huri
      cases field <;> first | exact ⟨_, ‹_›⟩ | simp [required] at this
    obtain ⟨_ | response, hresponse, h⟩ := bind_eq_ok.mp h
    · have := hmissing _ hresponse
      cases field <;> first | exact ⟨_, ‹_›⟩ | simp [required] at this
    obtain ⟨qop, hqop, h⟩ := bind_eq_ok.mp h
    obtain ⟨cnonce, hcnonce, h⟩ := bind_eq_ok.mp h
    obtain ⟨nc, hnc, -⟩ := bind_eq_ok.mp h
    cases field <;> exact ⟨_, ‹_›⟩
  · intro h
    obtain ⟨algorithm, halgorithm⟩ := h .algorithm (by simp [required])
    obtain ⟨username, husername⟩ := h .username (by simp [required])
    rw [halgorithm, husername]
    cases username with
    | none => exact ⟨none, rfl⟩
    | some username =>
    obtain ⟨realm, hrealm⟩ := h .realm (by simp [required, husername])
    rw [hrealm]
    cases realm with
    | none => exact ⟨none, rfl⟩
    | some realm =>
    obtain ⟨nonce, hnonce⟩ := h .nonce (by simp [required, husername, hrealm])
    rw [hnonce]
    cases nonce with
    | none => exact ⟨none, rfl⟩
    | some nonce =>
    obtain ⟨uri, huri⟩ := h .uri (by simp [required, husername, hrealm, hnonce])
    rw [huri]
    cases uri with
    | none => exact ⟨none, rfl⟩
    | some uri =>
    obtain ⟨response, hresponse⟩ :=
      h .response (by simp [required, husername, hrealm, hnonce, huri])
    rw [hresponse]
    cases response with
    | none => exact ⟨none, rfl⟩
    | some response =>
    have hlast : ∀ field : DigestField,
        field.required = [.username, .realm, .nonce, .uri, .response] →
        ∃ value, read field = .ok value :=
      fun field hrequired =>
        h field (by simp [hrequired, husername, hrealm, hnonce, huri, hresponse])
    obtain ⟨qop, hqop⟩ := hlast .qop rfl
    obtain ⟨cnonce, hcnonce⟩ := hlast .cnonce rfl
    obtain ⟨nc, hnc⟩ := hlast .nc rfl
    rw [hqop, hcnonce, hnc]
    exact ⟨_, rfl⟩

theorem nonceCheck_ok_iff [StdDigest] (auth : NonceConfig) (now : ℕ) :
  (∃ passes, nonceCheck authValue auth now = .ok passes)
    ↔ ∃ value, DigestField.nonce.read authValue = .ok value
  := by
  have hread : extractNonceField authValue = DigestField.nonce.read authValue := rfl
  rw [nonceCheck, hread]
  cases DigestField.nonce.read authValue with
  | error panic =>
    apply iff_of_false <;> rintro ⟨_, h⟩ <;> cases h
  | ok value =>
    refine iff_of_true ?_ ⟨value, rfl⟩
    cases value with
    | none | some => exact ⟨_, rfl⟩

/-- The check of the nonce returns exactly if the value can be cut where the nonce is read.  The
fields are read exactly if the value can be cut where each field is read that all required fields in
front of it are there for.  So it is if every character has as many octets in lower case. -/
theorem authorization_read_iff_cuttable [StdDigest] (auth : NonceConfig) (now : ℕ) :
  ((∃ passes, nonceCheck authValue auth now = .ok passes) ↔ Cuttable authValue .nonce)
    ∧ ((∃ fields, parse authValue = .ok fields)
      ↔ ∀ field : DigestField,
        (∀ earlier ∈ field.required, ∃ value, Reads authValue earlier (some value)) →
        Cuttable authValue field)
    ∧ (Aligned authValue →
      (∃ passes, nonceCheck authValue auth now = .ok passes)
        ∧ ∃ fields, parse authValue = .ok fields)
  := by
  have hnonce : (∃ passes, nonceCheck authValue auth now = .ok passes)
      ↔ Cuttable authValue .nonce := by
    rw [nonceCheck_ok_iff, read_ok_iff]
  have hparse : (∃ fields, parse authValue = .ok fields)
      ↔ ∀ field : DigestField,
        (∀ earlier ∈ field.required, ∃ value, Reads authValue earlier (some value)) →
        Cuttable authValue field := by
    simp only [parse_ok_iff, read_ok_iff]
    simp only [read_eq_ok_iff]
  refine ⟨hnonce, hparse, ?_⟩
  intro haligned
  exact ⟨hnonce.mpr (haligned.cuttable .nonce), hparse.mpr fun field _ => haligned.cuttable field⟩

end

/-- The tables of ASCII, with the capital dotted I, whose lower case is an i and a combining dot. -/
@[reducible] def dottedText : StdText where
  __ := StdText.ascii
  toLowercase t := t.flatMap fun c => if c = 'İ' then ['i', '\u0307'] else [c.toLower]
  toLowercase_ascii t h := by
    induction t with
    | nil => rfl
    | cons c t ih =>
    rw [forall_mem_cons] at h
    have hc : c ≠ 'İ' := by
      rintro rfl
      exact absurd h.1 (by decide)
    rw [flatMap_cons, if_neg hc, ih h.2, map_cons, singleton_append]

/-- The capital dotted I has two octets and its lower case three.  So the user name behind it is
read one octet too late, inside a character, and the nonce past the end. -/
theorem dottedRealm_panics :
  @parse dottedText "Digest realm=\"İ\", username=ü".toList = .error .sliced
    ∧ @nonceCheck dottedText "Digest realm=\"İ\", nonce=".toList ⟨fun _ _ => [], fun _ _ => []⟩
        { nonceSecret := none, nonceTtlSecs := 300 } 0 = .error .sliced
  := by
  decide +kernel

end Siphon.Auth
