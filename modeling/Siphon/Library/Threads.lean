import Siphon.Library.Run
import Siphon.Library.Text

/-!
# Interleaved threads

Threads that share a state.
-/

/-- Threads on a shared state: the phase a call begins at, and what the access of a thread at a
phase does with the shared state, given the input of the step. -/
structure Threads (σ κ φ ι ο : Type) where
  start : κ → φ
  access : σ → ι → φ → σ × φ × List ο

namespace Threads

/-- A call begins, or the thread at an index makes its next access. -/
inductive Input (κ ι : Type) where
  | begin (call : κ)
  | run (index : ℕ) (input : ι)

variable {σ κ φ ι ο : Type} (t : Threads σ κ φ ι ο)

/-- The shared state and the threads, under any interleaving of the accesses. -/
def machine : Machine (σ × List φ) (Input κ ι) ο where
  step s
    | .begin call => ((s.1, s.2 ++ [t.start call]), [])
    | .run index input =>
      match s.2[index]? with
      | none => (s, [])
      | some phase =>
        let (shared, phase, out) := t.access s.1 input phase
        ((shared, s.2.set index phase), out)

theorem mem_middle {before after : List φ} {a b : φ} :
  b ∈ before ++ a :: after ↔ b = a ∨ b ∈ before ++ after
  := by
  rw [List.mem_append, List.mem_cons, List.mem_append, or_left_comm]

theorem set_length_append {α : Type} (before after : List α) (a b : α) :
  (before ++ a :: after).set before.length b = before ++ b :: after
  := by
  simp

theorem eraseIdx_middle (before : List φ) (phase : φ) (after : List φ) :
  (before ++ phase :: after).eraseIdx before.length = before ++ after
  := by
  rw [List.eraseIdx_append_of_length_le le_rfl, Nat.sub_self, List.eraseIdx_cons_zero]

theorem step_run {s : σ} {threads : List φ} {index : ℕ} {phase : φ}
    (h : threads[index]? = some phase) (input : ι) :
  (t.machine.step (s, threads) (.run index input)).1
    = ((t.access s input phase).1, threads.set index (t.access s input phase).2.1)
  := by
  simp [machine, h]

theorem step_middle (s : σ) (before : List φ) (phase : φ) (after : List φ) (input : ι) :
  (t.machine.step (s, before ++ phase :: after) (.run before.length input)).1
    = ((t.access s input phase).1, before ++ (t.access s input phase).2.1 :: after)
  := by
  have hphase : (before ++ phase :: after)[before.length]? = some phase := by simp
  rw [step_run t hphase, set_length_append]

variable {t}

theorem logged {inv : List ο → σ → List φ → Prop} {allowed : σ × List φ → Input κ ι → Prop}
    (hbegin : ∀ log s threads call, inv log s threads → inv log s (threads ++ [t.start call]))
    (haccess : ∀ log s before phase after input,
      allowed (s, before ++ phase :: after) (.run before.length input) →
      inv log s (before ++ phase :: after) →
      inv (log ++ (t.access s input phase).2.2) (t.access s input phase).1
        (before ++ (t.access s input phase).2.1 :: after))
    {s : σ} (hs : inv [] s []) {is : List (Input κ ι)}
    (hallowed : ∀ before i, before ++ [i] <+: is → allowed (t.machine.run (s, []) before) i) :
  inv (t.machine.outputs (s, []) is) (t.machine.run (s, []) is).1 (t.machine.run (s, []) is).2
  := by
  refine @Machine.logged_of_allowed _ _ _ t.machine (fun log state => inv log state.1 state.2)
    allowed ?_ _ hs _ hallowed
  rintro log ⟨shared, threads⟩ i hi h
  cases i with
  | begin call =>
    simp only [machine, List.append_nil]
    exact hbegin log shared threads call h
  | run index input =>
    simp only [machine]
    split
    · simpa using h
    rename_i phase hphase
    obtain ⟨before, after, rfl, rfl⟩ := Slice.exists_split_of_getElem? hphase
    rw [set_length_append]
    exact haccess log shared before phase after input hi h

/-- What a new call and every access keep is an invariant. -/
theorem invariant {inv : σ → List φ → Prop}
    (hbegin : ∀ s threads call, inv s threads → inv s (threads ++ [t.start call]))
    (haccess : ∀ s before phase after input, inv s (before ++ phase :: after) →
      inv (t.access s input phase).1 (before ++ (t.access s input phase).2.1 :: after)) :
  t.machine.Invariant fun state => inv state.1 state.2
  := by
  rintro ⟨shared, threads⟩ i h
  cases i with
  | begin call => exact hbegin shared threads call h
  | run index input =>
  cases hphase : threads[index]? with
  | none => simpa [machine, hphase] using h
  | some phase =>
  obtain ⟨before, after, rfl, rfl⟩ := Slice.exists_split_of_getElem? hphase
  rw [step_middle]
  exact haccess shared before phase after input h

/-- So is what every access keeps of the shared state. -/
theorem shared_invariant {always : σ → Prop}
    (h : ∀ s input phase, always s → always (t.access s input phase).1) :
  t.machine.Invariant fun state => always state.1
  := by
  rintro ⟨shared, threads⟩ i hshared
  cases i with
  | begin call => exact hshared
  | run index input =>
  simp only [machine]
  split
  · exact hshared
  · exact h _ _ _ hshared

/-- If an access of a thread among others keeps a property of the shared state and the threads
exactly when it is allowed, then every state of a run has the property exactly when every access of
the run is allowed. -/
theorem run_iff {always : σ → Prop} {inv : σ → List φ → Prop}
    {allowed : σ → ι → φ → List φ → Prop}
    (hbegin : ∀ s threads call, inv s (threads ++ [t.start call]) ↔ inv s threads)
    (halways : ∀ s input phase, always s → always (t.access s input phase).1)
    (haccess : ∀ s before phase after input, always s → inv s (before ++ phase :: after) →
      (inv (t.access s input phase).1 (before ++ (t.access s input phase).2.1 :: after)
        ↔ allowed s input phase (before ++ after)))
    {s : σ} (hs : always s) (hinv : inv s []) (inputs : List (Input κ ι)) :
  (∀ before, before <+: inputs →
      inv (t.machine.run (s, []) before).1 (t.machine.run (s, []) before).2)
    ↔ ∀ before index input, before ++ [.run index input] <+: inputs →
      ∀ phase, (t.machine.run (s, []) before).2[index]? = some phase →
        allowed (t.machine.run (s, []) before).1 input phase
          ((t.machine.run (s, []) before).2.eraseIdx index)
  := by
  have hiff := @Machine.Invariant.run_iff _ _ _ t.machine (fun state => always state.1)
    (fun state => inv state.1 state.2)
    (fun state i => ∀ index input, i = .run index input → ∀ phase, state.2[index]? = some phase →
      allowed state.1 input phase (state.2.eraseIdx index))
    (shared_invariant halways) ?_ (s, []) hs hinv inputs
  · rw [hiff]
    constructor
    · intro h before index input hpre
      exact h before _ hpre index input rfl
    · rintro h before i hpre index input rfl
      exact h before index input hpre
  rintro ⟨shared, threads⟩ i hshared hstate
  cases i with
  | begin call =>
    simp only [machine, hbegin]
    refine iff_of_true hstate ?_
    rintro index input ⟨⟩
  | run index input =>
    cases hphase : threads[index]? with
    | none =>
      simp only [machine, hphase, hstate, true_iff]
      rintro _ _ ⟨⟩ phase hphase'
      rw [hphase] at hphase'
      cases hphase'
    | some phase =>
      obtain ⟨before, after, rfl, rfl⟩ := Slice.exists_split_of_getElem? hphase
      rw [step_middle, haccess _ _ _ _ _ hshared hstate]
      constructor
      · rintro hallowed _ _ ⟨⟩ phase' hphase'
        rw [hphase] at hphase'
        cases hphase'
        rw [eraseIdx_middle]
        exact hallowed
      · intro h
        rw [← eraseIdx_middle before phase after]
        exact h _ _ rfl phase hphase

end Threads
