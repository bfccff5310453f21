import Mathlib.Data.UInt

/-!
# Bitmaps

Bits kept in words of 64.
-/

namespace Bitmap

/-- The words of a bitmap, the lowest bits first. -/
abbrev Words := List (BitVec 64)

variable {words : Words} {i j start : ℕ}

def bit (words : Words) (i : ℕ) : Bool :=
  words.getD (i / 64) 0 &&& 1#64 <<< (i % 64) != 0

def setBit (words : Words) (i : ℕ) : Words :=
  words.modify (i / 64) (· ||| 1#64 <<< (i % 64))

def clearBit (words : Words) (i : ℕ) : Words :=
  words.modify (i / 64) (· &&& ~~~(1#64 <<< (i % 64)))

/-! ### Bits -/

theorem getLsbD_one_shiftLeft (k l : ℕ) :
  (1#64 <<< k).getLsbD l = (decide (k < 64) && decide (k = l))
  := by
  rw [← BitVec.twoPow_eq, BitVec.getLsbD_twoPow]

theorem bit_eq_getLsbD (words : Words) (i : ℕ) :
  bit words i = (words.getD (i / 64) 0).getLsbD (i % 64)
  := by
  have hlt : i % 64 < 64 := Nat.mod_lt _ (by decide)
  rw [bit, ← BitVec.twoPow_eq, BitVec.and_twoPow]
  cases (words.getD (i / 64) 0).getLsbD (i % 64)
  · simp
  simp only [if_true, bne_iff_ne, ne_eq]
  intro hzero
  have hbit := congrArg (fun w => BitVec.getLsbD w (i % 64)) hzero
  simp [hlt] at hbit

@[simp] theorem length_setBit (words : Words) (i : ℕ) :
  (setBit words i).length = words.length
  := List.length_modify ..

@[simp] theorem length_clearBit (words : Words) (i : ℕ) :
  (clearBit words i).length = words.length
  := List.length_modify ..

/-- The bit at `i` of its word, seen from a place of the same word. -/
theorem getLsbD_place (hdiv : i / 64 = j / 64) :
  (1#64 <<< (i % 64)).getLsbD (j % 64) = decide (j = i)
  := by
  have hplace : i % 64 = j % 64 ↔ j = i := by omega
  rw [getLsbD_one_shiftLeft, decide_eq_true (Nat.mod_lt i (by decide)), Bool.true_and]
  exact decide_eq_decide.mpr hplace

theorem getD_modify (words : Words) (f : BitVec 64 → BitVec 64) (k l : ℕ) (hk : k < words.length) :
  (words.modify k f).getD l 0 = if k = l then f (words.getD l 0) else words.getD l 0
  := by
  rw [List.getD_eq_getElem?_getD, List.getElem?_modify, List.getD_eq_getElem?_getD]
  split
  · rename_i hkl
    subst hkl
    simp [List.getElem?_eq_getElem hk]
  · simp

theorem bit_setBit (hi : i / 64 < words.length) :
  bit (setBit words i) j = (decide (j = i) || bit words j)
  := by
  rw [bit_eq_getLsbD, setBit, getD_modify words _ _ _ hi, bit_eq_getLsbD]
  split
  · rename_i hdiv
    rw [BitVec.getLsbD_or, getLsbD_place hdiv, Bool.or_comm]
  · rename_i hdiv
    have hne : j ≠ i := fun h => hdiv (by rw [h])
    simp [hne]

theorem bit_clearBit (hi : i / 64 < words.length) :
  bit (clearBit words i) j = (decide (j ≠ i) && bit words j)
  := by
  rw [bit_eq_getLsbD, clearBit, getD_modify words _ _ _ hi, bit_eq_getLsbD]
  split
  · rename_i hdiv
    have hlt : j % 64 < 64 := Nat.mod_lt j (by decide)
    rw [BitVec.getLsbD_and, BitVec.getLsbD_not, getLsbD_place hdiv, Bool.and_comm]
    simp [hlt]
  · rename_i hdiv
    have hne : j ≠ i := fun h => hdiv (by rw [h])
    simp [hne]

/-! ### Counting -/

/-- How many of the first bits are set. -/
def count (words : Words) (n : ℕ) : ℕ :=
  ((Finset.range n).filter fun i => bit words i = true).card

theorem count_le (words : Words) (n : ℕ) :
  count words n ≤ n
  := by
  apply (Finset.card_filter_le _ _).trans
  rw [Finset.card_range]

theorem count_setBit {n : ℕ} (hi : i / 64 < words.length) (hn : i < n)
    (hclear : bit words i = false) :
  count (setBit words i) n = count words n + 1
  := by
  have hinsert : (Finset.range n).filter (fun j => bit (setBit words i) j = true) =
      insert i ((Finset.range n).filter fun j => bit words j = true) := by
    ext j
    simp only [Finset.mem_filter, Finset.mem_range, Finset.mem_insert, bit_setBit hi,
      Bool.or_eq_true, decide_eq_true_eq]
    constructor
    · rintro ⟨hj, rfl | hbit⟩
      · apply Or.inl rfl
      · apply Or.inr ⟨hj, hbit⟩
    · rintro (rfl | ⟨hj, hbit⟩)
      · apply And.intro hn (.inl rfl)
      · apply And.intro hj (.inr hbit)
  rw [count, hinsert, Finset.card_insert_of_notMem (by simp [hclear]), count]

theorem count_clearBit {n : ℕ} (hi : i / 64 < words.length) (hn : i < n)
    (hset : bit words i = true) :
  count (clearBit words i) n + 1 = count words n
  := by
  have herase : (Finset.range n).filter (fun j => bit (clearBit words i) j = true) =
      ((Finset.range n).filter fun j => bit words j = true).erase i := by
    ext j
    simp only [Finset.mem_filter, Finset.mem_range, Finset.mem_erase, bit_clearBit hi,
      Bool.and_eq_true, decide_eq_true_eq]
    tauto
  rw [count, herase, Finset.card_erase_add_one (by simp [hn, hset]), count]

theorem exists_clear {n : ℕ} (h : count words n < n) :
  ∃ i < n, bit words i = false
  := by
  by_contra hall
  push Not at hall
  have hfull : (Finset.range n).filter (fun i => bit words i = true) = Finset.range n := by
    rw [Finset.filter_eq_self]
    intro i hi
    simpa using hall i (Finset.mem_range.mp hi)
  rw [count, hfull, Finset.card_range] at h
  exact absurd h (lt_irrefl n)

/-! ### Scanning -/

/-- The bits of a word below a place. -/
def below (start : ℕ) : BitVec 64 :=
  1#64 <<< (start % 64) - 1

/-- The word a step of a scan looks at, with the bits set that the step passes over. -/
def scanned (words : Words) (start step : ℕ) : BitVec 64 :=
  let word := words.getD ((start / 64 + step) % words.length) 0
  if step = 0 then word ||| below start
  else if step = words.length then word ||| ~~~below start
  else word

/-- The first clear bit from a place on, wrapping around. -/
def scan (words : Words) (start : ℕ) : Option ℕ :=
  (List.range (words.length + 1)).findSome? fun step =>
    let taken := scanned words start step
    if taken ≠ BitVec.allOnes 64 then
      some ((start / 64 + step) % words.length * 64 + (~~~taken).ctz.toNat)
    else none

theorem getLsbD_below (start k : ℕ) :
  (below start).getLsbD k = decide (k < start % 64)
  := by
  have hvalue : ∀ l < 64, 1#64 <<< l - 1 = BitVec.ofNat 64 (2 ^ l - 1) := by
    decide +kernel
  have hlt : start % 64 < 64 := Nat.mod_lt _ (by decide)
  rw [below, hvalue _ hlt, BitVec.getLsbD_ofNat, Nat.testBit_two_pow_sub_one]
  by_cases hk : k < start % 64
  · simp [hk, hk.trans hlt]
  · simp [hk]

theorem getLsbD_scanned {step k : ℕ}
    (h : (words.getD ((start / 64 + step) % words.length) 0).getLsbD k = true) :
  (scanned words start step).getLsbD k = true
  := by
  rw [scanned]
  split
  · rw [BitVec.getLsbD_or, h, Bool.true_or]
  · split
    · rw [BitVec.getLsbD_or, h, Bool.true_or]
    · exact h

theorem getLsbD_ctz_not {taken : BitVec 64} (h : taken ≠ BitVec.allOnes 64) :
  (~~~taken).ctz.toNat < 64 ∧ taken.getLsbD (~~~taken).ctz.toNat = false
  := by
  have hne : ~~~taken ≠ 0#64 := by
    intro hzero
    apply h
    rw [← BitVec.not_not (b := taken), hzero, BitVec.not_zero]
  have hbit := BitVec.getLsbD_true_ctz_of_ne_zero hne
  rw [BitVec.getLsbD_not, Bool.and_eq_true, Bool.not_eq_true', decide_eq_true_eq] at hbit
  exact hbit

theorem scan_eq_some (hne : words ≠ []) (h : scan words start = some i) :
  i / 64 < words.length ∧ bit words i = false
  := by
  obtain ⟨step, -, hstep⟩ := List.exists_of_findSome?_eq_some h
  dsimp only at hstep
  split at hstep
  · rename_i htaken
    obtain ⟨hlt, hclear⟩ := getLsbD_ctz_not htaken
    rw [Option.some_inj] at hstep
    have hdiv : i / 64 = (start / 64 + step) % words.length := by omega
    have hmod : i % 64 = (~~~scanned words start step).ctz.toNat := by omega
    apply And.intro
    · rw [hdiv]
      apply Nat.mod_lt _ (List.length_pos_of_ne_nil hne)
    rw [bit_eq_getLsbD, hdiv, hmod]
    apply Bool.eq_false_of_not_eq_true
    intro hset
    rw [getLsbD_scanned hset] at hclear
    exact absurd hclear (by decide)
  · simp at hstep

theorem exists_step (hstart : start / 64 < words.length) (hi : i / 64 < words.length) :
  ∃ step ≤ words.length, (start / 64 + step) % words.length = i / 64 ∧
    (step = 0 → start % 64 ≤ i % 64) ∧ (step = words.length → i % 64 < start % 64)
  := by
  rcases lt_trichotomy (i / 64) (start / 64) with hlt | heq | hgt
  · refine ⟨i / 64 + words.length - start / 64, by omega, ?_, by omega, by omega⟩
    rw [Nat.add_sub_cancel' (by omega), Nat.add_mod_right, Nat.mod_eq_of_lt hi]
  · by_cases hmod : start % 64 ≤ i % 64
    · refine ⟨0, by omega, ?_, fun _ => hmod, by omega⟩
      rw [Nat.add_zero, Nat.mod_eq_of_lt hstart, heq]
    · refine ⟨words.length, le_refl _, ?_, by omega, by omega⟩
      rw [Nat.add_mod_right, Nat.mod_eq_of_lt hstart, heq]
  · refine ⟨i / 64 - start / 64, by omega, ?_, by omega, by omega⟩
    rw [Nat.add_sub_cancel' (by omega), Nat.mod_eq_of_lt hi]

theorem scan_isSome (hstart : start / 64 < words.length) (hi : i / 64 < words.length)
    (hclear : bit words i = false) :
  (scan words start).isSome = true
  := by
  obtain ⟨step, hle, hword, hfirst, hlast⟩ := exists_step hstart hi
  rw [scan, List.findSome?_isSome_iff]
  refine ⟨step, List.mem_range.mpr (by omega), ?_⟩
  have hlt : i % 64 < 64 := Nat.mod_lt _ (by decide)
  rw [bit_eq_getLsbD] at hclear
  have hseen : (scanned words start step).getLsbD (i % 64) = false := by
    rw [scanned, hword]
    split
    · rename_i hzero
      simp only [BitVec.getLsbD_or, hclear, getLsbD_below, Bool.false_or, decide_eq_false_iff_not]
      exact not_lt.mpr (hfirst hzero)
    · split
      · rename_i hwrap
        rw [BitVec.getLsbD_or, hclear, BitVec.getLsbD_not, getLsbD_below]
        simp [hlast hwrap]
      · exact hclear
  have hne : scanned words start step ≠ BitVec.allOnes 64 := by
    intro hfull
    rw [hfull, BitVec.getLsbD_allOnes, decide_eq_false_iff_not] at hseen
    exact hseen hlt
  rw [if_pos hne, Option.isSome_some]

end Bitmap
