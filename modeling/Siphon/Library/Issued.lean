import Mathlib.Data.UInt

/-!
# Numbered writes

Calls on shared data draw a number for a write and hand the write out later.
-/

namespace Issued

open List

variable {φ ω : Type} {pending : φ → Option (ℕ × ω)} {out : List (ℕ × ω)} {before after : List φ}
  {phase phase' : φ}

def writes (pending : φ → Option (ℕ × ω)) (out : List (ℕ × ω)) (calls : List φ) : List (ℕ × ω) :=
  out ++ calls.filterMap pending

theorem perm_writes (out : List (ℕ × ω)) (before after : List φ) (phase : φ) :
  (writes pending out (before ++ phase :: after)).Perm
    ((pending phase).toList ++ writes pending out (before ++ after))
  := by
  have hpending : (phase :: after).filterMap pending =
      (pending phase).toList ++ after.filterMap pending := by
    cases hphase : pending phase with
    | none | some => simp [hphase]
  simp only [writes, filterMap_append, hpending, ← append_assoc]
  refine List.Perm.append_right _ (perm_append_comm.trans ?_)
  rw [append_assoc]

theorem perm_of_same (h : pending phase' = pending phase) :
  (writes pending out (before ++ phase' :: after)).Perm
    (writes pending out (before ++ phase :: after))
  := by
  refine (perm_writes _ _ _ _).trans (List.Perm.trans ?_ (perm_writes _ _ _ _).symm)
  rw [h]

theorem perm_of_drawn (h : pending phase = none) :
  (writes pending out (before ++ phase' :: after)).Perm
    ((pending phase').toList ++ writes pending out (before ++ phase :: after))
  := by
  refine (perm_writes _ _ _ _).trans (List.Perm.append_left _ ?_)
  refine List.Perm.trans ?_ (perm_writes _ _ _ _).symm
  rw [h]
  rfl

theorem perm_of_out (h : pending phase' = none) :
  (writes pending (out ++ (pending phase).toList) (before ++ phase' :: after)).Perm
    (writes pending out (before ++ phase :: after))
  := by
  refine (perm_writes _ _ _ _).trans (List.Perm.trans ?_ (perm_writes _ _ _ _).symm)
  simp only [h, writes, Option.toList_none, nil_append, ← append_assoc]
  exact List.Perm.append_right _ perm_append_comm

theorem writes_begin (calls : List φ) (h : pending phase = none) :
  writes pending out (calls ++ [phase]) = writes pending out calls
  := by
  simp [writes, h]

/-- Every write has a number of its own, below the next one. -/
structure Numbered (next : ℕ) (issued : List (ℕ × ω)) : Prop where
  below : ∀ write ∈ issued, write.1 < next
  nodup : (issued.map Prod.fst).Nodup

section

variable {next next' : ℕ} {issued issued' : List (ℕ × ω)} {p : ω → Prop}

/-- A write with a new number keeps them distinct. -/
theorem Numbered.step (h : Numbered next issued) {fresh : Option (ℕ × ω)}
    (hperm : issued'.Perm (fresh.toList ++ issued)) (hnext : next ≤ next')
    (hfresh : ∀ write ∈ fresh, next ≤ write.1 ∧ write.1 < next') :
  Numbered next' issued'
  := by
  constructor
  · intro write hmem
    rw [hperm.mem_iff, mem_append, Option.mem_toList] at hmem
    rcases hmem with hmem | hmem
    · exact (hfresh write hmem).2
    · exact Nat.lt_of_lt_of_le (h.below write hmem) hnext
  · rw [(hperm.map Prod.fst).nodup_iff, map_append, nodup_append]
    refine ⟨by cases fresh <;> simp, h.nodup, ?_⟩
    intro number hnumber other hother
    obtain ⟨write, hwrite, rfl⟩ := mem_map.mp hnumber
    obtain ⟨old, hold, rfl⟩ := mem_map.mp hother
    have hlow := h.below old hold
    have hhigh := (hfresh write (Option.mem_toList.mp hwrite)).1
    omega

/-- The write with the highest number has a property. -/
def Highest (p : ω → Prop) (issued : List (ℕ × ω)) : Prop :=
  ∀ write ∈ issued, (∀ other ∈ issued, other.1 ≤ write.1) → p write.2

theorem highest_congr (h : issued'.Perm issued) :
  Highest p issued' ↔ Highest p issued
  := by
  simp only [Highest, h.mem_iff]

theorem highest_cons_iff {fresh : ℕ × ω} (h : ∀ write ∈ issued, write.1 < fresh.1) :
  Highest p (fresh :: issued) ↔ p fresh.2
  := by
  constructor
  · intro hhighest
    apply hhighest fresh mem_cons_self
    intro other hmem
    rcases mem_cons.mp hmem with rfl | hmem
    · exact Nat.le_refl _
    · exact Nat.le_of_lt (h other hmem)
  · intro hp write hmem hhighest
    rcases mem_cons.mp hmem with rfl | hmem
    · exact hp
    · have hle := hhighest fresh mem_cons_self
      exact absurd (h write hmem) (Nat.not_lt.mpr hle)

end

end Issued
