import Siphon.Library.Text

/-!
# Hexadecimal numerals

Numbers written in a fixed number of lower-case hexadecimal digits.
-/

namespace Hex

/-- The last `width` hexadecimal digits of a number. -/
def pad : ℕ → ℕ → Text
  | 0, _ => []
  | width + 1, n => pad width (n / 16) ++ [Nat.digitChar (n % 16)]

theorem digitChar_injective {d e : ℕ} (hd : d < 16) (he : e < 16)
    (h : Nat.digitChar d = Nat.digitChar e) :
  d = e
  := by
  have htable : ∀ d < 16, ∀ e < 16, Nat.digitChar d = Nat.digitChar e → d = e := by decide
  exact htable d hd e he h

theorem pad_injective {width n m : ℕ} (hn : n < 16 ^ width) (hm : m < 16 ^ width)
    (h : pad width n = pad width m) :
  n = m
  := by
  induction width generalizing n m with
  | zero => omega
  | succ width ih =>
  obtain ⟨hinit, hlast⟩ := List.append_inj' h rfl
  have hdigit := digitChar_injective (Nat.mod_lt n (by decide)) (Nat.mod_lt m (by decide))
    (List.cons.inj hlast).1
  have hhigh : n / 16 = m / 16 := by
    refine ih ?_ ?_ hinit
    all_goals
      omega
  omega

theorem not_mem_pad {c : Char} (hc : ∀ d < 16, Nat.digitChar d ≠ c) (width n : ℕ) :
  c ∉ pad width n
  := by
  induction width generalizing n with
  | zero => simp [pad]
  | succ width ih =>
  rw [pad, List.mem_append, List.mem_singleton]
  rintro (hmem | rfl)
  · exact ih _ hmem
  · exact hc _ (Nat.mod_lt n (by decide)) rfl

end Hex
