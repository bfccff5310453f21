import Mathlib.Data.UInt

/-!
# Inverse indexes

Keys have owners, and every owner has a list of its keys.
-/

/-- The lists hold exactly the keys of their owners, each once. -/
structure Inverts {κ σ : Type} (owner : κ → Option σ) (lists : σ → List κ) : Prop where
  mem_iff : ∀ o k, k ∈ lists o ↔ owner k = some o
  nodup : ∀ o, (lists o).Nodup

namespace Inverts

variable {κ σ : Type} [DecidableEq κ] [DecidableEq σ] {owner : κ → Option σ} {lists : σ → List κ}

/-- When keys are given to an owner and its list is extended by them, the lists still invert the
owners if and only if the list has none of them twice, the keys were given to the owner of that
list, and none of them was listed elsewhere. -/
theorem add_iff (h : Inverts owner lists) {o : σ} {p : Option σ} {ks l : List κ}
    (hl : ∀ k, k ∈ l ↔ k ∈ lists o ∨ k ∈ ks) :
  Inverts (fun k => if k ∈ ks then p else owner k) (Function.update lists o l)
    ↔ l.Nodup ∧ (ks ≠ [] → p = some o) ∧ ∀ k ∈ ks, ∀ o', owner k = some o' → o' = o
  := by
  constructor
  · intro hnew
    have hgiven : ∀ k ∈ ks, p = some o := by
      intro k hk
      have hmem := (hnew.mem_iff o k).mp (by simp [hl, hk])
      simpa [hk] using hmem
    refine ⟨by simpa using hnew.nodup o, ?_, ?_⟩
    · intro hks
      obtain ⟨k, hk⟩ := List.exists_mem_of_ne_nil ks hks
      exact hgiven k hk
    · intro k hk o' ho'
      by_contra hne
      have hmem := (hnew.mem_iff o' k).mp (by simpa [hne] using (h.mem_iff o' k).mpr ho')
      rw [if_pos hk, hgiven k hk] at hmem
      exact hne (Option.some.inj hmem).symm
  · rintro ⟨hnodup, hgiven, hfree⟩
    constructor
    · intro o' k
      by_cases hk : k ∈ ks
      · rw [if_pos hk, hgiven (List.ne_nil_of_mem hk)]
        by_cases ho : o' = o
        · simp [ho, hl, hk]
        · simp only [Function.update_of_ne ho, h.mem_iff, Option.some.injEq, Ne.symm ho, iff_false]
          exact fun howner => ho (hfree k hk o' howner)
      · rw [if_neg hk]
        by_cases ho : o' = o
        · simp [ho, hl, hk, h.mem_iff]
        · simp [ho, h.mem_iff]
    · intro o'
      by_cases ho : o' = o
      · simpa [ho] using hnodup
      · simpa [ho] using h.nodup o'

theorem remove (h : Inverts owner lists) {o : σ} {ks l : List κ}
    (hks : ∀ k ∈ ks, owner k = some o) (hl : l = (lists o).filter (· ∉ ks)) :
  Inverts (fun k => if k ∈ ks then none else owner k) (Function.update lists o l)
  := by
  subst hl
  constructor
  · intro o' k
    by_cases ho : o' = o
    · by_cases hk : k ∈ ks <;> simp [ho, hk, h.mem_iff]
    · by_cases hk : k ∈ ks
      · simp [ho, hk, h.mem_iff, hks k hk, Ne.symm ho]
      · simp [ho, hk, h.mem_iff]
  · intro o'
    by_cases ho : o' = o
    · simpa [ho] using (h.nodup o).filter _
    · simpa [ho] using h.nodup o'

end Inverts

namespace Owners

variable {κ σ : Type} [DecidableEq κ] [DecidableEq σ]

/-- Take a key from an owner if it is still the owner's. -/
def removeIf (owner : κ → Option σ) (entry : κ × σ) : κ → Option σ :=
  if owner entry.1 = some entry.2 then Function.update owner entry.1 none else owner

theorem foldl_removeIf (owner : κ → Option σ) (entries : List (κ × σ)) (k : κ) :
  entries.foldl removeIf owner k = (owner k).filter fun o => (k, o) ∉ entries
  := by
  induction entries generalizing owner with
  | nil => cases ho : owner k <;> simp [ho, Option.filter]
  | cons entry entries ih =>
  have hone : removeIf owner entry k = (owner k).filter fun o => (k, o) ≠ entry := by
    obtain ⟨k', o'⟩ := entry
    simp only [removeIf]
    by_cases hk : k = k'
    · cases ho : owner k <;> grind
    · cases ho : owner k <;> grind
  rw [List.foldl_cons, ih, hone, Option.filter_filter]
  congr 1
  funext o
  simp [not_or]

end Owners
