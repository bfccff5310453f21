import Mathlib.Data.UInt
import Mathlib.Data.List.DropRight

/-!
# Texts and byte strings

A text is the list of the characters of a string slice and a byte string the list of the
octets of a byte slice.  The definitions below are the searching, splitting and trimming
operations a string library has, over either; `StdText` collects the operations whose
tables are the Unicode standard's, of which only the behaviour on ASCII is known.
-/

/-- The characters of a string slice. -/
abbrev Text : Type := List Char

/-- The octets of a byte slice. -/
abbrev Bytes : Type := List UInt8

/-- What the text operations of a standard library read from tables: the alphanumeric
characters of Unicode, its case mappings, and the decimal texts of a 32-bit float.  On
ASCII texts the first three are the ASCII ones. -/
class StdText where
  /-- The alphabetic and numeric characters. -/
  isAlphanumeric : Char → Bool
  toUppercase : Text → Text
  toLowercase : Text → Text
  F32 : Type
  parseF32 : Text → Option F32
  displayF32 : F32 → Text
  isAlphanumeric_ascii : ∀ c : Char, c.toNat < 128 → isAlphanumeric c = c.isAlphanum
  toUppercase_ascii : ∀ t : Text, (∀ c ∈ t, c.toNat < 128) → toUppercase t = t.map Char.toUpper
  toLowercase_ascii : ∀ t : Text, (∀ c ∈ t, c.toNat < 128) → toLowercase t = t.map Char.toLower

/-- The tables of ASCII alone. -/
@[reducible] def StdText.ascii : StdText where
  isAlphanumeric c := c.isAlphanum
  toUppercase t := t.map Char.toUpper
  toLowercase t := t.map Char.toLower
  F32 := Empty
  parseF32 _ := none
  displayF32 := Empty.elim
  isAlphanumeric_ascii _ _ := rfl
  toUppercase_ascii _ _ := rfl
  toLowercase_ascii _ _ := rfl

/-- The list without the leading and trailing elements satisfying `p`. -/
def Slice.trimMatches {α : Type} (p : α → Bool) (l : List α) : List α :=
  (l.dropWhile p).rdropWhile p

namespace Text

/-- The characters with the Unicode property `White_Space`. -/
def isWhitespace (c : Char) : Bool :=
  let n := c.toNat
  (9 ≤ n && n ≤ 13) || n == 0x20 || n == 0x85 || n == 0xA0 || n == 0x1680
    || (0x2000 ≤ n && n ≤ 0x200A) || n == 0x2028 || n == 0x2029 || n == 0x202F
    || n == 0x205F || n == 0x3000

/-- The ASCII white space: space, tab, line feed, form feed and carriage return. -/
def isAsciiWhitespace (c : Char) : Bool :=
  c == ' ' || c == '\t' || c == '\n' || c == '\x0c' || c == '\r'

/-- The text without its leading and trailing white space. -/
def trim (t : Text) : Text :=
  Slice.trimMatches isWhitespace t

/-- The text without its leading and trailing ASCII white space. -/
def trimAscii (t : Text) : Text :=
  Slice.trimMatches isAsciiWhitespace t

def toAsciiLowercase (t : Text) : Text :=
  t.map Char.toLower

/-- `eq_ignore_ascii_case` -/
def eqIgnoreAsciiCase (s t : Text) : Bool :=
  s.toAsciiLowercase == t.toAsciiLowercase

theorem toLower_of_le {c : Char} (hc : 128 ≤ c.toNat) :
  c.toLower = c
  := by
  apply dif_neg
  rintro ⟨-, hz⟩
  have hle : c.toNat ≤ 90 := UInt32.le_iff_toNat_le.mp hz
  omega

theorem toAsciiLowercase_toAsciiLowercase (t : Text) :
  toAsciiLowercase (toAsciiLowercase t) = toAsciiLowercase t
  := by
  simp only [toAsciiLowercase, List.map_map]
  apply List.map_congr_left
  intro c _
  by_cases hlt : c.toNat < 128
  · have htable : ∀ n < 128, (Char.ofNat n).toLower.toLower = (Char.ofNat n).toLower := by
      decide +kernel
    have hsame := htable c.toNat hlt
    rwa [Char.ofNat_toNat] at hsame
  · rw [Function.comp_apply, toLower_of_le (not_lt.mp hlt), toLower_of_le (not_lt.mp hlt)]

theorem eqIgnoreAsciiCase_toAsciiLowercase (s t : Text) :
  eqIgnoreAsciiCase s t.toAsciiLowercase = eqIgnoreAsciiCase s t
  := by
  rw [eqIgnoreAsciiCase, eqIgnoreAsciiCase, toAsciiLowercase_toAsciiLowercase]

theorem mem_of_mem_toAsciiLowercase {c : Char} {t : Text} (hc : c.isLower = false)
    (h : c ∈ toAsciiLowercase t) :
  c ∈ t
  := by
  obtain ⟨d, hd, rfl⟩ := List.mem_map.mp h
  by_cases hlt : d.toNat < 128
  · have htable : ∀ n < 128, (Char.ofNat n).toLower.isLower = false →
        (Char.ofNat n).toLower = Char.ofNat n := by
      decide +kernel
    have hsame := htable d.toNat hlt
    rw [Char.ofNat_toNat] at hsame
    rwa [hsame hc]
  · rwa [toLower_of_le (not_lt.mp hlt)]

end Text

namespace Slice

variable {α : Type} [BEq α]

/-- The index at which `pat` first occurs. -/
def position (pat : List α) : List α → Option ℕ
  | [] => if pat.isEmpty then some 0 else none
  | a :: l => if pat.isPrefixOf (a :: l) then some 0 else (position pat l).map (· + 1)

/-- The index of the last occurrence of `a`. -/
def rfind (a : α) : List α → Option ℕ
  | [] => none
  | b :: l =>
    match rfind a l with
    | some i => some (i + 1)
    | none => if b == a then some 0 else none

/-- The parts before and after the first occurrence of `a`. -/
def splitOnce (a : α) : List α → Option (List α × List α)
  | [] => none
  | b :: l => if b == a then some ([], l) else (splitOnce a l).map fun x => (b :: x.1, x.2)

/-- The parts before and after the last occurrence of `a`. -/
def rsplitOnce (a : α) (l : List α) : Option (List α × List α) :=
  (rfind a l).map fun i => (l.take i, l.drop (i + 1))

end Slice

namespace Slice

open List

variable {α : Type}

/-! ### Runs of a predicate -/

variable {p : α → Bool} {a r : List α}

theorem takeWhile_dropWhile_append (ha : ∀ x ∈ a, p x = true) (hr : ∀ x ∈ r.head?, p x = false) :
  (a ++ r).takeWhile p = a ∧ (a ++ r).dropWhile p = r
  := by
  rw [takeWhile_append_of_pos ha, dropWhile_append_of_pos ha]
  cases r with
  | nil => simp
  | cons x r =>
  have hx : p x = false := hr x rfl
  simp [hx]

variable {l : List α}

theorem head?_dropWhile :
  ∀ x ∈ (l.dropWhile p).head?, p x = false
  := by
  intro x hx
  have h := head?_dropWhile_not p l
  rw [Option.mem_def.mp hx] at h
  simpa using h

theorem span_iff :
  (l.takeWhile p = a ∧ l.dropWhile p = r)
    ↔ l = a ++ r ∧ (∀ x ∈ a, p x = true) ∧ ∀ x ∈ r.head?, p x = false
  := by
  constructor
  · rintro ⟨rfl, rfl⟩
    apply And.intro takeWhile_append_dropWhile.symm
    apply And.intro fun x hx => mem_takeWhile_imp hx
    apply head?_dropWhile
  · rintro ⟨rfl, ha, hr⟩
    apply takeWhile_dropWhile_append ha hr

/-! ### Occurrences -/

section Position

variable [BEq α] [LawfulBEq α] {pat : List α} {n : ℕ}

theorem position_eq_some_iff :
  position pat l = some n
    ↔ n ≤ l.length ∧ pat <+: l.drop n ∧ ∀ m < n, ¬ pat <+: l.drop m
  := by
  induction l generalizing n with
  | nil =>
    cases pat <;> cases n <;> simp [position]
  | cons a l ih =>
    rw [position]
    split
    · rename_i h
      rw [List.isPrefixOf_iff_prefix] at h
      constructor
      · rintro ⟨⟩
        simp [h]
      rintro ⟨-, -, hn⟩
      cases n with
      | zero => rfl
      | succ n =>
      exfalso
      apply hn 0 n.succ_pos h
    · rename_i h
      rw [List.isPrefixOf_iff_prefix] at h
      cases n with
      | zero => simp [h]
      | succ n =>
      simp only [Option.map_eq_some_iff, Nat.add_right_cancel_iff, exists_eq_right, ih,
        length_cons, Nat.add_le_add_iff_right, drop_succ_cons]
      constructor
      · rintro ⟨hl, hd, hm⟩
        apply And.intro hl (And.intro hd _)
        intro m hmn
        cases m with
        | zero => apply h
        | succ m => apply hm m (by omega)
      · rintro ⟨hl, hd, hm⟩
        apply And.intro hl (And.intro hd _)
        intro m hmn
        apply hm (m + 1) (by omega)

theorem position_append {x : α} {a r : List α} (ha : x ∉ a) :
  position (x :: pat) (a ++ x :: pat ++ r) = some a.length
  := by
  rw [position_eq_some_iff]
  apply And.intro (by simp)
  apply And.intro (by simp [append_assoc])
  intro m hm hp
  obtain ⟨s, hs⟩ := hp
  have hget : (a ++ x :: pat ++ r).drop m = a.drop m ++ (x :: pat ++ r) := by
    rw [append_assoc, drop_append_of_le_length hm.le]
  rw [hget, drop_eq_getElem_cons hm] at hs
  have hx : x = a[m] := (cons.inj hs).1
  apply ha
  rw [hx]
  apply getElem_mem

theorem position_singleton_of_not_mem {x : α} (h : x ∉ l) :
  position [x] l = none
  := by
  induction l with
  | nil => rfl
  | cons a l ih =>
  rw [mem_cons, not_or] at h
  simp [position, ih h.2, h.1]

theorem take_append_of_position (h : position pat l = some n) :
  ∃ r, l = l.take n ++ pat ++ r ∧ n = (l.take n).length
  := by
  rw [position_eq_some_iff] at h
  obtain ⟨hn, ⟨r, hr⟩, -⟩ := h
  use r
  constructor
  · rw [append_assoc, hr, take_append_drop]
  · simp [hn]

theorem position_append_of_eq_some {a : List α} {n : ℕ} (h : position pat a = some n) (r : List α) :
  position pat (a ++ r) = some n
  := by
  rw [position_eq_some_iff] at h ⊢
  obtain ⟨hn, hpat, hno⟩ := h
  refine ⟨by simp; omega, ?_, ?_⟩
  · rw [drop_append_of_le_length hn]
    apply hpat.trans (prefix_append _ _)
  intro m hm hp
  apply hno m hm
  have hlen := hpat.length_le
  rw [length_drop] at hlen
  rw [drop_append_of_le_length (by omega)] at hp
  apply prefix_of_prefix_length_le hp (prefix_append _ _)
  rw [length_drop]
  omega

theorem position_of_append {a r : List α} {n : ℕ} (h : position pat (a ++ r) = some n) :
  position pat a = if n + pat.length ≤ a.length then some n else none
  := by
  split
  · rename_i hle
    rw [position_eq_some_iff] at h ⊢
    obtain ⟨-, hpat, hno⟩ := h
    rw [drop_append_of_le_length (by omega)] at hpat
    refine ⟨by omega, ?_, ?_⟩
    · apply prefix_of_prefix_length_le hpat (prefix_append _ _)
      rw [length_drop]
      omega
    · intro m hm hp
      apply hno m hm
      rw [drop_append_of_le_length (by omega)]
      apply hp.trans (prefix_append _ _)
  · rename_i hlt
    cases hk : position pat a with
    | none => rfl
    | some k =>
    rw [position_append_of_eq_some hk r] at h
    cases h
    obtain ⟨hn, hpat, -⟩ := position_eq_some_iff.mp hk
    have hlen := hpat.length_le
    rw [length_drop] at hlen
    omega

theorem exists_position_le (h : pat <+: l.drop n) (hn : n ≤ l.length) :
  ∃ m, position pat l = some m ∧ m ≤ n
  := by
  induction l generalizing n with
  | nil =>
    rw [drop_nil, prefix_nil] at h
    exact ⟨0, by simp [position, h], Nat.zero_le n⟩
  | cons a l ih =>
    rw [position]
    split
    · exact ⟨0, rfl, Nat.zero_le n⟩
    rename_i hhere
    cases n with
    | zero => exact absurd (List.isPrefixOf_iff_prefix.mpr h) hhere
    | succ n =>
    obtain ⟨m, hm, hle⟩ := ih h (Nat.le_of_succ_le_succ hn)
    exact ⟨m + 1, by simp [hm], Nat.succ_le_succ hle⟩

end Position

/-! ### Cutting at an element -/

variable {a : α}

theorem exists_of_mem_last (hl : a ∈ l) :
  ∃ x y, l = x ++ a :: y ∧ a ∉ y
  := by
  obtain ⟨x, y, hxy, hx⟩ := eq_append_cons_of_mem (mem_reverse.mpr hl)
  refine ⟨y.reverse, x.reverse, ?_, by simpa using hx⟩
  have h := congrArg reverse hxy
  simpa using h

theorem exists_split_of_getElem? {index : ℕ} (h : l[index]? = some a) :
  ∃ before after, l = before ++ a :: after ∧ before.length = index
  := by
  obtain ⟨hlt, rfl⟩ := List.getElem?_eq_some_iff.mp h
  refine ⟨l.take index, l.drop (index + 1), by simp, ?_⟩
  rw [length_take]
  exact Nat.min_eq_left (Nat.le_of_lt hlt)

/-! ### Changing one element -/

theorem modify_length_append (before after : List α) (a : α) (f : α → α) :
  (before ++ a :: after).modify before.length f = before ++ f a :: after
  := by
  induction before with
  | nil => rfl
  | cons b before ih => simp [ih]

theorem mem_modify (h : a ∈ l) (index : ℕ) (f : α → α) :
  a ∈ l.modify index f ∨ l[index]? = some a ∧ f a ∈ l.modify index f
  := by
  obtain ⟨place, hplace⟩ := mem_iff_getElem?.mp h
  by_cases heq : index = place
  · refine .inr ⟨heq ▸ hplace, mem_iff_getElem?.mpr ⟨place, ?_⟩⟩
    simp [hplace, heq]
  · refine .inl (mem_iff_getElem?.mpr ⟨place, ?_⟩)
    simp [hplace, heq]

theorem of_mem_modify {index : ℕ} {f : α → α} {b : α} (h : b ∈ l.modify index f) :
  b ∈ l ∨ ∃ a ∈ l, b = f a
  := by
  obtain ⟨place, hplace⟩ := mem_iff_getElem?.mp h
  rw [getElem?_modify] at hplace
  obtain ⟨a, ha, rfl⟩ := Option.map_eq_some_iff.mp hplace
  have hmem : a ∈ l := mem_iff_getElem?.mpr ⟨place, ha⟩
  split
  · exact .inr ⟨a, hmem, rfl⟩
  · exact .inl hmem

theorem mem_splitOnP {w : List α} (h : w ∈ l.splitOnP p) :
  (∀ b ∈ w, p b = false) ∧ ∀ b ∈ w, b ∈ l
  := by
  induction l generalizing w with
  | nil =>
    obtain rfl : w = [] := by simpa using h
    simp
  | cons b l ih =>
    rw [splitOnP_cons_eq_if_modifyHead] at h
    split at h
    · rcases mem_cons.mp h with rfl | h
      · simp
      · exact ⟨(ih h).1, fun c hc => mem_cons_of_mem _ ((ih h).2 c hc)⟩
    rename_i hb
    obtain ⟨v, vs, hv⟩ := exists_cons_of_ne_nil (splitOnP_ne_nil p l)
    rw [hv, modifyHead_cons] at h
    rw [hv] at ih
    rcases mem_cons.mp h with rfl | h
    · obtain ⟨hpv, hmem⟩ := ih mem_cons_self
      simpa [hb] using ⟨hpv, fun c hc => .inr (hmem c hc)⟩
    · obtain ⟨hpw, hmem⟩ := ih (mem_cons_of_mem _ h)
      exact ⟨hpw, fun c hc => mem_cons_of_mem _ (hmem c hc)⟩

section Split

variable [BEq α] [LawfulBEq α]

theorem splitOnce_append {x : List α} (hx : a ∉ x) (y : List α) :
  splitOnce a (x ++ a :: y) = some (x, y)
  := by
  induction x with
  | nil => simp [splitOnce]
  | cons b x ih =>
  rw [mem_cons, not_or] at hx
  have hb : (b == a) = false := beq_false_of_ne (Ne.symm hx.1)
  simp [splitOnce, hb, ih hx.2]

theorem splitOnce_of_not_mem (hl : a ∉ l) :
  splitOnce a l = none
  := by
  induction l with
  | nil => rfl
  | cons b l ih =>
  rw [mem_cons, not_or] at hl
  have hb : (b == a) = false := beq_false_of_ne (Ne.symm hl.1)
  simp [splitOnce, hb, ih hl.2]

theorem splitOnce_eq_some_iff {x y : List α} :
  splitOnce a l = some (x, y) ↔ l = x ++ a :: y ∧ a ∉ x
  := by
  constructor
  · intro h
    by_cases hl : a ∈ l
    · obtain ⟨u, v, rfl, hu⟩ := eq_append_cons_of_mem hl
      rw [splitOnce_append hu] at h
      cases h
      exact ⟨rfl, hu⟩
    · rw [splitOnce_of_not_mem hl] at h
      cases h
  · rintro ⟨rfl, hx⟩
    apply splitOnce_append hx

theorem rfind_of_not_mem (hl : a ∉ l) :
  rfind a l = none
  := by
  induction l with
  | nil => rfl
  | cons b l ih =>
  rw [mem_cons, not_or] at hl
  have hb : (b == a) = false := beq_false_of_ne (Ne.symm hl.1)
  simp [rfind, ih hl.2, hb]

theorem rfind_append (x : List α) {y : List α} (hy : a ∉ y) :
  rfind a (x ++ a :: y) = some x.length
  := by
  induction x with
  | nil => simp [rfind, rfind_of_not_mem hy]
  | cons b x ih => simp [rfind, ih]

theorem rsplitOnce_append (x : List α) {y : List α} (hy : a ∉ y) :
  rsplitOnce a (x ++ a :: y) = some (x, y)
  := by
  simp [rsplitOnce, rfind_append x hy]

theorem rsplitOnce_of_not_mem (hl : a ∉ l) :
  rsplitOnce a l = none
  := by
  simp [rsplitOnce, rfind_of_not_mem hl]

theorem mem_splitOn {w : List α} (h : w ∈ l.splitOn a) :
  a ∉ w ∧ ∀ b ∈ w, b ∈ l
  := by
  obtain ⟨hp, hmem⟩ := mem_splitOnP h
  exact ⟨fun ha => by simpa using hp a ha, hmem⟩

theorem splitOn_append_flatMap {x : List α} {ws : List (List α)} (hx : a ∉ x)
    (hws : ∀ w ∈ ws, a ∉ w) :
  (x ++ ws.flatMap fun w => a :: w).splitOn a = x :: ws
  := by
  induction ws generalizing x with
  | nil => simp [splitOn_eq_singleton hx]
  | cons w ws ih =>
  rw [flatMap_cons, cons_append, splitOn_append_cons_self_of_not_mem hx,
    ih (hws w mem_cons_self) fun v hv => hws v (mem_cons_of_mem _ hv)]

theorem eq_append_flatMap_of_splitOn {first : List α} {parts : List (List α)}
    (h : l.splitOn a = first :: parts) :
  l = first ++ parts.flatMap fun w => a :: w
  := by
  have hjoin : [a].intercalate (l.splitOn a) = l := intercalate_splitOn a
  rw [← hjoin, h]
  clear h hjoin
  induction parts generalizing first with
  | nil => simp [intercalate]
  | cons p parts ih =>
  rw [flatMap_cons, cons_append, ← ih]
  simp [intercalate]

end Split

end Slice
