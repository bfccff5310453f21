import Mathlib.Data.UInt

/-!
# Runs of machines with outputs

A machine takes an input to a new state and to outputs.
-/

structure Machine (σ ι ο : Type) where
  step : σ → ι → σ × List ο

namespace Machine

open List

variable {σ ι ο : Type} (m : Machine σ ι ο)

def run (s : σ) : List ι → σ
  | [] => s
  | i :: is => run (m.step s i).1 is

def trace (s : σ) : List ι → List (ι × List ο)
  | [] => []
  | i :: is => (i, (m.step s i).2) :: trace (m.step s i).1 is

variable (s : σ)

@[simp] theorem run_nil :
  m.run s [] = s
  := rfl

@[simp] theorem run_cons (i : ι) (is : List ι) :
  m.run s (i :: is) = m.run (m.step s i).1 is
  := rfl

@[simp] theorem trace_nil :
  m.trace s [] = []
  := rfl

@[simp] theorem trace_cons (i : ι) (is : List ι) :
  m.trace s (i :: is) = (i, (m.step s i).2) :: m.trace (m.step s i).1 is
  := rfl

theorem run_append (is js : List ι) :
  m.run s (is ++ js) = m.run (m.run s is) js
  := by
  induction is generalizing s with
  | nil => rfl
  | cons i is ih => apply ih

theorem trace_append (is js : List ι) :
  m.trace s (is ++ js) = m.trace s is ++ m.trace (m.run s is) js
  := by
  induction is generalizing s with
  | nil => rfl
  | cons i is ih =>
  rw [cons_append, trace_cons, ih]
  rfl

def outputs (s : σ) (is : List ι) : List ο :=
  (m.trace s is).flatMap Prod.snd

theorem outputs_append_singleton (is : List ι) (i : ι) :
  m.outputs s (is ++ [i]) = m.outputs s is ++ (m.step (m.run s is) i).2
  := by
  simp [outputs, trace_append]

/-! ### Invariants -/

/-- A property of states that every step keeps. -/
def Invariant (inv : σ → Prop) : Prop :=
  ∀ s i, inv s → inv (m.step s i).1

variable {m}

/-- An invariant holds after every run. -/
theorem Invariant.run {inv : σ → Prop} (h : m.Invariant inv) {s : σ} (hs : inv s) (is : List ι) :
  inv (m.run s is)
  := by
  induction is generalizing s with
  | nil => exact hs
  | cons i is ih => exact ih (h s i hs)

theorem history {inv : List ι → σ → Prop}
    (h : ∀ hist s i, inv hist s → inv (hist ++ [i]) (m.step s i).1) {s : σ} (hs : inv [] s)
    (is : List ι) :
  inv is (m.run s is)
  := by
  have hgen : ∀ hist s, inv hist s → inv (hist ++ is) (m.run s is) := by
    induction is with
    | nil =>
      intro hist s hs
      rwa [append_nil]
    | cons i is ih =>
      intro hist s hs
      rw [append_cons]
      exact ih _ _ (h hist s i hs)
  exact hgen [] s hs

variable {inv : List ο → σ → Prop}

theorem logged_of_allowed {allowed : σ → ι → Prop}
    (h : ∀ log s i, allowed s i → inv log s → inv (log ++ (m.step s i).2) (m.step s i).1) {s : σ}
    (hs : inv [] s) {is : List ι}
    (hallowed : ∀ before i, before ++ [i] <+: is → allowed (m.run s before) i) :
  inv (m.outputs s is) (m.run s is)
  := by
  induction is using List.reverseRecOn with
  | nil => exact hs
  | append_singleton is i ih =>
  rw [outputs_append_singleton, run_append]
  refine h _ _ i (hallowed is i prefix_rfl) (ih ?_)
  intro before j hpre
  exact hallowed before j (hpre.trans (prefix_append is [i]))

theorem logged (h : ∀ log s i, inv log s → inv (log ++ (m.step s i).2) (m.step s i).1) {s : σ}
    (hs : inv [] s) (is : List ι) :
  inv (m.outputs s is) (m.run s is)
  := @logged_of_allowed _ _ _ _ inv (fun _ _ => True) (fun log s i _ => h log s i) _ hs _
    (fun _ _ _ => trivial)

/-- What just the allowed inputs keep holds along just the allowed runs. -/
theorem Invariant.run_iff {always inv : σ → Prop} {allowed : σ → ι → Prop}
    (halways : m.Invariant always)
    (h : ∀ s i, always s → inv s → (inv (m.step s i).1 ↔ allowed s i)) {s : σ} (hs : always s)
    (hinv : inv s) (is : List ι) :
  (∀ before, before <+: is → inv (m.run s before))
    ↔ ∀ before i, before ++ [i] <+: is → allowed (m.run s before) i
  := by
  have hstep : ∀ before i, inv (m.run s before) →
      (inv (m.run s (before ++ [i])) ↔ allowed (m.run s before) i) := by
    intro before i hbefore
    rw [run_append]
    exact h _ i (halways.run hs before) hbefore
  constructor
  · intro hall before i hpre
    have hbefore := hall before ((prefix_append before [i]).trans hpre)
    exact (hstep before i hbefore).mp (hall _ hpre)
  intro hallowed before
  induction before using List.reverseRecOn with
  | nil => exact fun _ => hinv
  | append_singleton before i ih =>
  intro hpre
  have hbefore := ih ((prefix_append before [i]).trans hpre)
  exact (hstep before i hbefore).mpr (hallowed before i hpre)

/-! ### Budgets -/

theorem Invariant.budget {inv : σ → Prop} (h : m.Invariant inv) {weight : ι → List ο → ℕ}
    {left : σ → ℕ} (hstep : ∀ s i, inv s → weight i (m.step s i).2 + left (m.step s i).1 ≤ left s)
    {s : σ} (hs : inv s) (is : List ι) :
  ((m.trace s is).map fun e => weight e.1 e.2).sum + left (m.run s is) ≤ left s
  := by
  induction is generalizing s with
  | nil => simp
  | cons i is ih =>
  have hi := hstep s i hs
  have htail := ih (h s i hs)
  rw [trace_cons, map_cons, sum_cons, run_cons]
  dsimp only
  omega

/-! ### Refinement -/

/-- The moves of an abstract system, one after the other, with all they report. -/
inductive Moves {π ρ : Type} (move : π → List ρ → π → Prop) : π → List ρ → π → Prop where
  | nil (p : π) : Moves move p [] p
  | cons {p q r : π} {reports rest : List ρ} (first : move p reports q)
      (others : Moves move q rest r) : Moves move p (reports ++ rest) r

/-- Every step makes a move of an abstract system. -/
def Refines {π ρ : Type} (m : Machine σ ι ο) (move : π → List ρ → π → Prop) (abs : σ → π)
    (report : ι → List ο → List ρ) : Prop :=
  ∀ s i, move (abs s) (report i (m.step s i).2) (abs (m.step s i).1)

theorem Refines.moves {π ρ : Type} {move : π → List ρ → π → Prop} {abs : σ → π}
    {report : ι → List ο → List ρ} (h : m.Refines move abs report) (s : σ) (is : List ι) :
  Moves move (abs s) ((m.trace s is).flatMap fun e => report e.1 e.2) (abs (m.run s is))
  := by
  induction is generalizing s with
  | nil => exact .nil _
  | cons i is ih =>
  exact .cons (h s i) (ih _)

end Machine
