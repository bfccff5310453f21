import Siphon.Library.Run

/-!
# Machines with timers

A machine whose outputs start and stop named timers, together with the timers that run.
-/

/-- A machine whose outputs start and stop timers.  An effect is a timer and how long it is started
for, or nothing if it is stopped. -/
structure TimedMachine (σ ι ο ν : Type) where
  step : ℕ → σ → ι → σ × List ο
  /-- The input a timer brings when it expires. -/
  expiry : ℕ → ν → Option ι
  effect : ο → Option (ν × Option ℕ)

inductive TimedInput (ι ν : Type) where
  | input (now : ℕ) (i : ι)
  | expire (now : ℕ) (name : ν)

/-- The timers that run, each with the time it is due. -/
abbrev Running (ν : Type) : Type := ν → Option ℕ

namespace TimedMachine

variable {σ ι ο ν : Type} [DecidableEq ν] (m : TimedMachine σ ι ο ν)

def apply (now : ℕ) (running : Running ν) (output : ο) : Running ν :=
  match m.effect output with
  | some (name, duration) => Function.update running name (duration.map fun d => now + d)
  | none => running

def applyAll (now : ℕ) (running : Running ν) (outputs : List ο) : Running ν :=
  outputs.foldl (m.apply now) running

/-- A state and the timers that run after the outputs that come with it. -/
def start (now : ℕ) (r : σ × List ο) : σ × Running ν :=
  (r.1, m.applyAll now (fun _ => none) r.2)

def take (now : ℕ) (s : σ × Running ν) (i : ι) : (σ × Running ν) × List ο :=
  (((m.step now s.1 i).1, m.applyAll now s.2 (m.step now s.1 i).2), (m.step now s.1 i).2)

/-- The machine and its timers.  Only a timer that runs and is due expires. -/
def timed : Machine (σ × Running ν) (TimedInput ι ν) ο where
  step
    | s, .input now i => m.take now s i
    | (s, running), .expire now name =>
      if (running name).any fun due => due ≤ now then
        let running := Function.update running name none
        match m.expiry now name with
        | some i => m.take now (s, running) i
        | none => ((s, running), [])
      else ((s, running), [])

/-- No timer that runs would have its expiry put anything out. -/
def Quiet (s : σ × Running ν) : Prop :=
  ∀ name due, s.2 name = some due → ∀ now, due ≤ now → (m.timed.step s (.expire now name)).2 = []

/-- Expiries alone lead to the end: the state is final, or a timer runs whose expiry, whenever it
comes, leads to such a state again. -/
inductive Ends (final : σ → Prop) : σ × Running ν → Prop where
  | final {s : σ × Running ν} (h : final s.1) : Ends final s
  | expire {s : σ × Running ν} {name : ν} {due : ℕ} (hrunning : s.2 name = some due)
      (h : ∀ now, due ≤ now → Ends final (m.timed.step s (.expire now name)).1) : Ends final s

/-- A timer runs whose expiry leads to the end. -/
def EndsByTimer (final : σ → Prop) (s : σ × Running ν) : Prop :=
  ∃ name due, s.2 name = some due
    ∧ ∀ now, due ≤ now → m.Ends final (m.timed.step s (.expire now name)).1

/-! ### Which timers run -/

/-- Whether a timer runs after outputs, if it is known whether it ran before. -/
def runs (name : ν) (before : Bool) (outputs : List ο) : Bool :=
  outputs.foldl (fun b output =>
    match m.effect output with
    | some (n, duration) => if n = name then duration.isSome else b
    | none => b) before

section

variable (name : ν) (before : Bool)

@[simp] theorem runs_nil :
  m.runs name before [] = before
  := rfl

@[simp] theorem runs_cons (output : ο) (outputs : List ο) :
  m.runs name before (output :: outputs)
    = m.runs name
      (match m.effect output with
        | some (n, duration) => if n = name then duration.isSome else before
        | none => before) outputs
  := rfl

@[simp] theorem runs_append (first second : List ο) :
  m.runs name before (first ++ second) = m.runs name (m.runs name before first) second
  := List.foldl_append

end

variable {m}

theorem isSome_apply (now : ℕ) (running : Running ν) (output : ο) (name : ν) :
  (m.apply now running output name).isSome = m.runs name (running name).isSome [output]
  := by
  simp only [apply, runs, List.foldl_cons, List.foldl_nil]
  cases m.effect output with
  | none => rfl
  | some e =>
  obtain ⟨n, duration⟩ := e
  by_cases h : n = name
  · simp [h]
  · simp [h, Function.update_of_ne (Ne.symm h)]

theorem isSome_applyAll (now : ℕ) (running : Running ν) (outputs : List ο) (name : ν) :
  (m.applyAll now running outputs name).isSome = m.runs name (running name).isSome outputs
  := by
  induction outputs generalizing running with
  | nil => rfl
  | cons output outputs ih =>
  have hfirst := isSome_apply (m := m) now running output name
  simp only [applyAll, runs, List.foldl_cons, List.foldl_nil] at hfirst ih ⊢
  rw [ih, hfirst]

/-! ### Expiries -/

variable {s : σ × Running ν}

theorem step_expire {name : ν} {due now : ℕ} {i : ι} (hrunning : s.2 name = some due)
    (hdue : due ≤ now) (hi : m.expiry now name = some i) :
  m.timed.step s (.expire now name) = m.take now (s.1, Function.update s.2 name none) i
  := by
  obtain ⟨s, running⟩ := s
  have hany : (running name).any (fun due => due ≤ now) = true := by
    rw [show running name = some due from hrunning]
    exact decide_eq_true hdue
  simp only [timed, hany, if_true, hi]

theorem endsByTimer_of_final {final : σ → Prop} {name : ν} (hrunning : (s.2 name).isSome = true)
    (h : ∀ now, ∃ i, m.expiry now name = some i ∧ final (m.step now s.1 i).1) :
  m.EndsByTimer final s
  := by
  obtain ⟨due, hdue⟩ := Option.isSome_iff_exists.mp hrunning
  refine ⟨name, due, hdue, fun now hnow => ?_⟩
  obtain ⟨i, hi, hfinal⟩ := h now
  rw [step_expire hdue hnow hi]
  exact .final hfinal

theorem EndsByTimer.ends {final : σ → Prop} (h : m.EndsByTimer final s) :
  m.Ends final s
  := by
  obtain ⟨name, due, hdue, hends⟩ := h
  exact .expire hdue hends

theorem quiet_of_step (h : ∀ now i, (m.step now s.1 i).2 = []) :
  m.Quiet s
  := by
  intro name due hdue now hnow
  cases hi : m.expiry now name with
  | some i =>
    rw [step_expire hdue hnow hi]
    exact h now i
  | none =>
    simp only [timed, hi]
    split <;> rfl

/-! ### Guards -/

/-- The timer a state relies on runs. -/
def Guarded (guard : σ → Option ν) (s : σ × Running ν) : Prop :=
  ∀ name, guard s.1 = some name → (s.2 name).isSome = true

/-- Every step leaves the timer its new state relies on running, if the timer the old state relies
on ran, unless it is this timer that expired. -/
def KeepsGuard (m : TimedMachine σ ι ο ν) (inv : σ → Prop) (guard : σ → Option ν) : Prop :=
  ∀ now s i, inv s → ∀ name, guard (m.step now s i).1 = some name →
    ∀ before, (guard s = some name → before = true ∨ m.expiry now name = some i) →
      m.runs name before (m.step now s i).2 = true

variable {guard : σ → Option ν}

theorem KeepsGuard.take {inv : σ → Prop} (h : KeepsGuard m inv guard) {now : ℕ} {i : ι}
    (hs : inv s.1) (hguard : ∀ name, guard s.1 = some name →
      (s.2 name).isSome = true ∨ m.expiry now name = some i) :
  Guarded guard (m.take now s i).1
  := by
  intro name hname
  have hruns := h now s.1 i hs name hname _ (hguard name)
  rwa [← isSome_applyAll now] at hruns

theorem invariant_guarded {inv : σ → Prop} (hinv : ∀ now s i, inv s → inv (m.step now s i).1)
    (hkeeps : KeepsGuard m inv guard)
    (hexpiry : ∀ now s name, guard s = some name → (m.expiry now name).isSome = true) :
  m.timed.Invariant fun s => inv s.1 ∧ Guarded guard s
  := by
  rintro ⟨s, running⟩ i ⟨hs, hguard⟩
  cases i with
  | input now i =>
    exact ⟨hinv now s i hs, hkeeps.take hs fun name h => .inl (hguard name h)⟩
  | expire now name =>
    simp only [timed]
    split
    · have hothers (n : ν) (hn : n ≠ name) (h : guard s = some n) :
          (Function.update running name none n).isSome = true := by
        rw [Function.update_of_ne hn]
        exact hguard n h
      cases hi : m.expiry now name with
      | some i =>
        refine ⟨hinv now s i hs, hkeeps.take hs fun n hn => ?_⟩
        by_cases hne : n = name
        · exact .inr (hne ▸ hi)
        · exact .inl (hothers n hne hn)
      | none =>
        refine ⟨hs, fun n hn => hothers n ?_ hn⟩
        rintro rfl
        have hsome := hexpiry now s n hn
        rw [hi] at hsome
        cases hsome
    · exact ⟨hs, hguard⟩

end TimedMachine
