import Siphon.Library.Utf8

/-!
# Lines

Lists cut into lines that each end with a line end of two elements, such as CR LF.
-/

namespace Lines

open List

variable {α : Type}

/-- The lines, each with the line end after it. -/
def unlines (eol : List α) (ls : List (List α)) : List α :=
  ls.flatMap (· ++ eol)

@[simp] theorem unlines_nil (eol : List α) :
  unlines eol [] = []
  := rfl

@[simp] theorem unlines_cons (eol l : List α) (ls : List (List α)) :
  unlines eol (l :: ls) = l ++ eol ++ unlines eol ls
  := flatMap_cons

@[simp] theorem unlines_append (eol : List α) (ls ks : List (List α)) :
  unlines eol (ls ++ ks) = unlines eol ls ++ unlines eol ks
  := flatMap_append

variable {c : α}

theorem exists_of_append_eq_append_cons {a y x t : List α} (hc : c ∉ a) (h : a ++ y = x ++ c :: t) :
  ∃ z, x = a ++ z ∧ y = z ++ c :: t
  := by
  rcases append_eq_append_iff.mp h with ⟨z, hx, hy⟩ | ⟨z, ha, hz⟩
  · exact ⟨z, hx, hy⟩
  cases z with
  | nil =>
    exact ⟨[], by simp [ha], by simpa using hz.symm⟩
  | cons d z =>
    exfalso
    rw [cons_append, List.cons.injEq] at hz
    apply hc
    rw [ha, hz.1]
    simp

theorem append_cons_inj {a b x y : List α} (ha : c ∉ a) (hb : c ∉ b)
    (h : a ++ c :: x = b ++ c :: y) :
  a = b ∧ x = y
  := by
  obtain ⟨z, hz, hx⟩ := exists_of_append_eq_append_cons ha h
  cases z with
  | nil =>
    rw [append_nil] at hz
    rw [nil_append, List.cons.injEq] at hx
    exact ⟨hz.symm, hx.2⟩
  | cons d z =>
    exfalso
    rw [cons_append, List.cons.injEq] at hx
    apply hb
    rw [hz, hx.1]
    simp

theorem eq_nil_of_append_eq_append_singleton {x t y : List α} (hc : c ∉ t) (h : x ++ t = y ++ [c]) :
  t = []
  := by
  cases t using List.reverseRecOn with
  | nil => rfl
  | append_singleton t d =>
  exfalso
  rw [← append_assoc] at h
  have hd : d = c := by simpa using (append_inj' h rfl).2
  apply hc
  simp [hd]

section Position

variable [BEq α] [LawfulBEq α] {cr lf : α}

theorem position_append_left {pat a l : List α} (hc : c ∉ a) :
  Slice.position (c :: pat) (a ++ l) = (Slice.position (c :: pat) l).map (· + a.length)
  := by
  induction a with
  | nil => simp
  | cons d a ih =>
  rw [mem_cons, not_or] at hc
  rw [cons_append, Slice.position, ih hc.2]
  simp [hc.1, List.isPrefixOf, Function.comp_def, Nat.add_assoc]

theorem position_blank_line {l : List α} {ls : List (List α)} (rest : List α) (hne : cr ≠ lf)
    (hls : ∀ k ∈ l :: ls, k ≠ [] ∧ cr ∉ k) :
  Slice.position [cr, lf, cr, lf] (unlines [cr, lf] (l :: ls) ++ [cr, lf] ++ rest)
    = some ((unlines [cr, lf] (l :: ls)).length - 2)
  := by
  induction ls generalizing l with
  | nil =>
    have hl := (hls l (by simp)).2
    have h := @Slice.position_append _ _ _ [lf, cr, lf] cr _ rest hl
    simpa using h
  | cons k ls ih =>
    have hl := (hls l (by simp)).2
    have hk := hls k (by simp)
    have htail := ih (l := k) fun j hj => hls j (mem_cons_of_mem _ hj)
    rw [unlines_cons, append_assoc, append_assoc, append_assoc, position_append_left hl]
    cases k with
    | nil => exact absurd rfl hk.1
    | cons d k =>
    have hd : cr ≠ d := by
      rintro rfl
      apply hk.2 (by simp)
    rw [append_assoc] at htail
    have hstep : Slice.position [cr, lf, cr, lf]
        ([cr, lf] ++ (unlines [cr, lf] ((d :: k) :: ls) ++ ([cr, lf] ++ rest)))
        = (Slice.position [cr, lf, cr, lf]
          (unlines [cr, lf] ((d :: k) :: ls) ++ ([cr, lf] ++ rest))).map (· + 2) := by
      rw [cons_append, Slice.position, cons_append, Slice.position]
      simp [List.isPrefixOf, hd, hne, Function.comp_def]
    rw [hstep, htail]
    simp
    omega

end Position

end Lines
