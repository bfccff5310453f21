import Siphon.Library.Threads

/-!
# What threads hold

Threads that take units of resources, give them back, and count them in the shared state.
-/

namespace Threads

variable {σ κ φ ι ο ρ : Type} {t : Threads σ κ φ ι ο}

/-- How much the threads hold together. -/
def held (holds : φ → ℕ) (threads : List φ) : ℕ :=
  (threads.map holds).sum

theorem held_append (holds : φ → ℕ) (threads others : List φ) :
  held holds (threads ++ others) = held holds threads + held holds others
  := by
  simp [held]

theorem held_middle (holds : φ → ℕ) (before : List φ) (phase : φ) (after : List φ) :
  held holds (before ++ phase :: after) = holds phase + held holds (before ++ after)
  := by
  simp only [held, List.map_append, List.map_cons, List.sum_append_nat, List.sum_cons]
  omega

theorem held_le {holds most : φ → ℕ} (h : ∀ phase, holds phase ≤ most phase) (threads : List φ) :
  held holds threads ≤ held most threads
  := by
  induction threads with
  | nil => exact le_rfl
  | cons phase threads ih => exact Nat.add_le_add (h phase) ih

theorem held_eq_zero {holds : φ → ℕ} {threads : List φ} (h : ∀ phase ∈ threads, holds phase = 0) :
  held holds threads = 0
  := by
  rw [held, List.sum_eq_zero_iff_forall_eq_nat]
  simpa using h

/-- Each count is what the threads hold of its resource. -/
def Exact (count : σ → ρ → ℕ) (holds : φ → ρ → ℕ) (state : σ × List φ) : Prop :=
  ∀ resource, count state.1 resource = held (holds · resource) state.2

variable {count : σ → ρ → ℕ} {holds : φ → ρ → ℕ} {s : σ} {phase : φ}

theorem exact_middle_iff {before : List φ} {after : List φ} :
  Exact count holds (s, before ++ phase :: after)
    ↔ ∀ resource,
      count s resource = holds phase resource + held (holds · resource) (before ++ after)
  := by
  simp only [Exact, held_middle]

theorem Exact.count_eq {state : σ × List φ} (h : Exact count holds state) {index : ℕ}
    (hphase : state.2[index]? = some phase) (resource : ρ) :
  count state.1 resource
    = holds phase resource + held (holds · resource) (state.2.eraseIdx index)
  := by
  obtain ⟨s, threads⟩ := state
  obtain ⟨before, after, rfl, rfl⟩ := Slice.exists_split_of_getElem? hphase
  rw [exact_middle_iff.mp h, eraseIdx_middle]

theorem exact_begin {threads : List φ} (h : ∀ resource, holds phase resource = 0)
    (hexact : Exact count holds (s, threads)) :
  Exact count holds (s, threads ++ [phase])
  := by
  simpa [Exact, held, h] using hexact

/-- The counts of a run are exact if they stay so in every step after which less is held than a
bound. -/
theorem exact_of_few {always : σ → Prop} {bound : ℕ}
    (hbegin : ∀ call resource, holds (t.start call) resource = 0)
    (halways : ∀ s input phase, always s → always (t.access s input phase).1)
    (haccess : ∀ s input phase (rest : ρ → ℕ), always s →
      (∀ resource, count s resource = holds phase resource + rest resource) →
      (∀ resource, holds (t.access s input phase).2.1 resource + rest resource < bound) →
      ∀ resource, count (t.access s input phase).1 resource =
        holds (t.access s input phase).2.1 resource + rest resource)
    {s : σ} (hs : always s) (hzero : ∀ resource, count s resource = 0) {inputs : List (Input κ ι)}
    (hfew : ∀ before, before <+: inputs →
      ∀ resource, held (holds · resource) (t.machine.run (s, []) before).2 < bound) :
  Exact count holds (t.machine.run (s, []) inputs)
  := by
  refine (@logged _ _ _ _ _ t (fun _ s threads => always s ∧ Exact count holds (s, threads))
    (fun state i => ∀ resource, held (holds · resource) (t.machine.step state i).1.2 < bound)
    ?_ ?_ s ⟨hs, hzero⟩ inputs ?_).2
  · rintro _ s threads call ⟨hshared, hexact⟩
    exact ⟨hshared, exact_begin (hbegin call) hexact⟩
  · rintro _ s before phase after input hbound ⟨hshared, hexact⟩
    refine ⟨halways _ _ _ hshared, exact_middle_iff.mpr ?_⟩
    refine haccess _ _ _ _ hshared (exact_middle_iff.mp hexact) fun resource => ?_
    have hlt := hbound resource
    rwa [step_middle, held_middle] at hlt
  · intro before i hpre resource
    have hlt := hfew _ hpre resource
    rwa [Machine.run_append] at hlt

theorem held_lt_of_inits (most : φ → ℕ) {bound : ℕ}
    (hmost : ∀ phase resource, holds phase resource ≤ most phase) {inputs : List (Input κ ι)}
    (h : ∀ before ∈ inputs.inits, held most (t.machine.run (s, []) before).2 < bound) :
  ∀ before, before <+: inputs →
    ∀ resource, held (holds · resource) (t.machine.run (s, []) before).2 < bound
  := by
  intro before hpre resource
  refine lt_of_le_of_lt (held_le (fun phase => hmost phase resource) _) ?_
  exact h before ((List.mem_inits _ _).mpr hpre)

theorem count_le_held_run
    (haccess : ∀ s input phase resource rest,
      count s resource ≤ holds phase resource + rest →
      count (t.access s input phase).1 resource ≤
        holds (t.access s input phase).2.1 resource + rest)
    {s : σ} (hs : ∀ resource, count s resource = 0) (inputs : List (Input κ ι)) (resource : ρ) :
  count (t.machine.run (s, []) inputs).1 resource
    ≤ held (holds · resource) (t.machine.run (s, []) inputs).2
  := by
  refine @Threads.logged _ _ _ _ _ t
    (fun _ s threads => count s resource ≤ held (holds · resource) threads) (fun _ _ => True)
    ?_ ?_ _ (hs resource).le inputs (fun _ _ _ => trivial)
  · intro _ s threads call h
    rw [held_append]
    omega
  · intro _ s before phase after input _ h
    rw [held_middle] at h ⊢
    exact haccess _ _ _ _ _ h

/-! ### One thread of a run -/

theorem mem_of_getElem?_ne {α : Type} {before after : List α} {a b : α} {index : ℕ}
    (h : (before ++ a :: after)[index]? = some b) (hne : before.length ≠ index) :
  b ∈ before ++ after
  := by
  rw [List.mem_append]
  obtain hlt | hgt := Nat.lt_or_gt_of_ne hne
  · rw [List.getElem?_append_right hlt.le] at h
    obtain ⟨k, hk⟩ := Nat.exists_eq_succ_of_ne_zero (Nat.sub_ne_zero_of_lt hlt)
    rw [hk, List.getElem?_cons_succ] at h
    exact .inr (List.mem_of_getElem? h)
  · rw [List.getElem?_append_left hgt] at h
    exact .inl (List.mem_of_getElem? h)

theorem thread_invariant {inv : σ → List φ → Prop} {p : σ → φ → Prop}
    (hinv : t.machine.Invariant fun state => inv state.1 state.2)
    (hown : ∀ s input phase, p s phase → p (t.access s input phase).1 (t.access s input phase).2.1)
    (hother : ∀ s input before phase after other, inv s (before ++ phase :: after) →
      other ∈ before ++ after → p s other → p (t.access s input phase).1 other) (index : ℕ) :
  t.machine.Invariant fun state =>
    inv state.1 state.2 ∧ ∃ phase, state.2[index]? = some phase ∧ p state.1 phase
  := by
  rintro ⟨shared, threads⟩ i ⟨hall, phase, hphase, hp⟩
  refine ⟨hinv _ i hall, ?_⟩
  cases i with
  | begin call =>
    refine ⟨phase, ?_, hp⟩
    rw [machine, List.getElem?_append_left (List.getElem?_eq_some_iff.mp hphase).1]
    exact hphase
  | run moved input =>
    cases hmoved : threads[moved]? with
    | none =>
      refine ⟨phase, ?_⟩
      simpa only [machine, hmoved] using And.intro hphase hp
    | some moving =>
      rw [step_run t hmoved]
      by_cases heq : moved = index
      · subst heq
        rw [hphase] at hmoved
        obtain rfl := Option.some.inj hmoved
        have hlt := (List.getElem?_eq_some_iff.mp hphase).1
        exact ⟨_, List.getElem?_set_self hlt, hown _ _ _ hp⟩
      · refine ⟨phase, (List.getElem?_set_ne heq).trans hphase, ?_⟩
        obtain ⟨before, after, rfl, rfl⟩ := Slice.exists_split_of_getElem? hmoved
        exact hother _ _ _ _ _ _ hall (mem_of_getElem?_ne hphase heq) hp

/-- What every access keeps of a phase lasts. -/
theorem phase_run {p : φ → Prop}
    (haccess : ∀ s input phase, p phase → p (t.access s input phase).2.1) {state : σ × List φ}
    {index : ℕ} (hphase : ∃ phase, state.2[index]? = some phase ∧ p phase)
    (inputs : List (Input κ ι)) :
  ∃ phase, (t.machine.run state inputs).2[index]? = some phase ∧ p phase
  := by
  have hinvariant := @thread_invariant _ _ _ _ _ t (fun _ _ => True) (fun _ => p)
    (fun _ _ _ => trivial) haccess (fun _ _ _ _ _ _ _ _ hp => hp) index
  exact (hinvariant.run ⟨trivial, hphase⟩ inputs).2

end Threads
