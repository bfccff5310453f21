import Siphon.Library.Text

/-!
# Decimal numerals

Reading and writing machine integers in decimal.
-/

namespace Decimal

def value (t : Text) : ℕ :=
  Nat.ofDigitChars 10 t 0

/-- A numeral without its optional sign. -/
def stripPlus : Text → Text
  | '+' :: digits => digits
  | digits => digits

/-- The unsigned integer below `bound` a text denotes: digits after an optional `+`. -/
def parse (bound : ℕ) (t : Text) : Option ℕ :=
  let digits := stripPlus t
  if digits ≠ [] ∧ digits.all Char.isDigit ∧ value digits < bound then some (value digits) else none

def display (n : ℕ) : Text :=
  Nat.toDigits 10 n

theorem eq_or_stripPlus (t : Text) :
  t = '+' :: stripPlus t ∨ t = stripPlus t
  := by
  fun_cases stripPlus t
  · apply Or.inl rfl
  · apply Or.inr rfl

theorem parse_eq_some {bound n : ℕ} {t : Text} (h : parse bound t = some n) :
  t ≠ [] ∧ (∀ c ∈ t, c = '+' ∨ c.isDigit = true) ∧ n < bound
  := by
  rw [parse] at h
  split at h
  · rename_i hc
    obtain ⟨hne, hdigits, hlt⟩ := hc
    rw [List.all_eq_true] at hdigits
    obtain rfl := Option.some.inj h
    have ht := eq_or_stripPlus t
    generalize stripPlus t = digits at *
    rcases ht with rfl | rfl
    · refine ⟨by simp, ?_, hlt⟩
      intro c hmem
      rcases List.mem_cons.mp hmem with rfl | hmem
      · apply Or.inl rfl
      · apply Or.inr (hdigits c hmem)
    · exact ⟨hne, fun c hmem => .inr (hdigits c hmem), hlt⟩
  · cases h

theorem isDigit_of_mem_display {n : ℕ} {c : Char} (h : c ∈ display n) :
  c.isDigit = true
  := Nat.isDigit_of_mem_toDigits (by decide) (le_refl 10) h

theorem isWhitespace_of_digit {c : Char} (h : c = '+' ∨ c.isDigit = true) :
  Text.isWhitespace c = false
  := by
  rcases h with rfl | h
  · rfl
  simp only [Char.isDigit, Bool.and_eq_true, decide_eq_true_eq] at h
  have hlo : 48 ≤ c.toNat := UInt32.le_iff_toNat_le.mp h.1
  have hhi : c.toNat ≤ 57 := UInt32.le_iff_toNat_le.mp h.2
  simp only [Text.isWhitespace, Bool.or_eq_false_iff, Bool.and_eq_false_iff, beq_eq_false_iff_ne,
    decide_eq_false_iff_not]
  omega

theorem display_ne_nil (n : ℕ) :
  display n ≠ []
  := Nat.toDigits_ne_nil

theorem all_isDigit_display (n : ℕ) :
  (display n).all Char.isDigit = true
  := by
  rw [List.all_eq_true]
  intro c hc
  apply isDigit_of_mem_display hc

@[simp] theorem value_display (n : ℕ) :
  value (display n) = n
  := Nat.ofDigitChars_toDigits (by decide) (le_refl 10)

theorem parse_display {bound n : ℕ} (h : n < bound) :
  parse bound (display n) = some n
  := by
  have hsign : stripPlus (display n) = display n := by
    rcases eq_or_stripPlus (display n) with hplus | heq
    · have hdigit := isDigit_of_mem_display (n := n) (c := '+') (by rw [hplus]; simp)
      cases hdigit
    · apply heq.symm
  rw [parse, hsign, value_display, if_pos ⟨display_ne_nil n, all_isDigit_display n, h⟩]

/-! ### Signed integers -/

/-- The integer at least `-bound` and below `bound` a text denotes: digits after an optional
sign. -/
def parseInt (bound : ℕ) : Text → Option ℤ
  | '-' :: digits =>
    if digits ≠ [] ∧ digits.all Char.isDigit ∧ value digits ≤ bound then
      some (-(value digits : ℤ))
    else none
  | t => (parse bound t).map Int.ofNat

def displayInt : ℤ → Text
  | .ofNat n => display n
  | .negSucc n => '-' :: display (n + 1)

theorem mem_displayInt {i : ℤ} {c : Char} (h : c ∈ displayInt i) :
  c = '-' ∨ c.isDigit = true
  := by
  cases i with
  | ofNat n => exact .inr (isDigit_of_mem_display h)
  | negSucc n =>
  rcases List.mem_cons.mp h with rfl | h
  · exact .inl rfl
  · exact .inr (isDigit_of_mem_display h)

theorem parseInt_displayInt {bound : ℕ} {i : ℤ} (hlow : -(bound : ℤ) ≤ i) (hhigh : i < bound) :
  parseInt bound (displayInt i) = some i
  := by
  cases i with
  | ofNat n =>
    have hn : n < bound := Int.ofNat_lt.mp hhigh
    have hsign (digits : Text) : display n ≠ '-' :: digits := by
      intro h
      have hdigit := isDigit_of_mem_display (n := n) (c := '-') (by rw [h]; simp)
      cases hdigit
    rw [displayInt, parseInt.eq_def]
    split
    · rename_i digits h
      exact absurd h (hsign digits)
    · rw [parse_display hn]
      rfl
  | negSucc n =>
    rw [displayInt, parseInt, value_display,
      if_pos ⟨display_ne_nil _, all_isDigit_display _, by omega⟩]
    rfl

end Decimal
