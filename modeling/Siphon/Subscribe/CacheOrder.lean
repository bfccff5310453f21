import Siphon.Subscribe.DialogCache

/-!
# When the cache ends as memory does

Memory holds what the call of the last change made of the dialog, the cache what the call of the
last task did.
-/

namespace Siphon.Subscribe

open List SubscribeDialog

def SubscribeCall.IsRemoval : SubscribeCall → Prop
  | .remove => True
  | _ => False

instance (call : SubscribeCall) : Decidable call.IsRemoval :=
  match call with
  | .remove => isTrue trivial
  | .put _ | .update _ => isFalse id

/-- What is known of a call's entry. -/
structure Running.Sound (index : ℕ) (running : Running) : Prop where
  known : ∀ dialog, running.call = .put dialog → running.entry = some (some ⟨index, dialog⟩)
  unknown : running.changes = true → (∀ dialog, running.call ≠ .put dialog) → running.entry = none
  removal : ∀ entry, running.entry = some entry → (entry = none ↔ running.call.IsRemoval)
  writer : ∀ version, running.entry = some (some version) → version.writer = index

namespace DialogStore

/-- An entry is the one made by the call that is said to have written it last. -/
def Written (calls : List Running) (last : Option ℕ) (entry : Option Version) : Prop :=
  match last with
  | none => entry = none
  | some index => ∃ running, calls[index]? = some running ∧ running.entry = some entry

/-- What holds of the store in every run. -/
structure Sound (store : DialogStore) : Prop where
  calls : ∀ index running, store.calls[index]? = some running → Running.Sound index running
  memory : Written store.calls store.lastChange store.memory
  cache : Written store.calls store.lastTask store.cache
  changed : store.lastChange = none → ∀ running ∈ store.calls, running.changes = false →
    running.entry = none
  stored : store.lastTask = none → ∀ running ∈ store.calls, running.stores = true

variable {calls : List Running} {entry : Option Version}

theorem Written.append {last : Option ℕ} (h : Written calls last entry) (more : List Running) :
  Written (calls ++ more) last entry
  := by
  cases last with
  | none => exact h
  | some index =>
  obtain ⟨running, hget, hentry⟩ := h
  have hlt := (List.getElem?_eq_some_iff.mp hget).1
  exact ⟨running, (List.getElem?_append_left hlt).trans hget, hentry⟩

variable {index : ℕ} {running after : Running}

theorem Written.set {last : Option ℕ} (h : Written calls last entry)
    (hget : calls[index]? = some running)
    (hkeep : ∀ made, running.entry = some made → after.entry = some made) :
  Written (calls.set index after) last entry
  := by
  cases last with
  | none => exact h
  | some i =>
  obtain ⟨other, hother, hentry⟩ := h
  have hlt := (List.getElem?_eq_some_iff.mp hget).1
  by_cases heq : index = i
  · subst heq
    rw [hget] at hother
    cases hother
    exact ⟨after, by simp [hlt], hkeep entry hentry⟩
  · exact ⟨other, (List.getElem?_set_ne heq).trans hother, hentry⟩

theorem written_set (hget : calls[index]? = some running) (hentry : after.entry = some entry) :
  Written (calls.set index after) (some index) entry
  := by
  have hlt := (List.getElem?_eq_some_iff.mp hget).1
  exact ⟨after, by simp [hlt], hentry⟩

theorem forall_set {p : ℕ → Running → Prop}
    (h : ∀ i running, calls[i]? = some running → p i running) (hafter : p index after) :
  ∀ i running, (calls.set index after)[i]? = some running → p i running
  := by
  intro i running hget
  rw [List.getElem?_set] at hget
  split at hget
  · rename_i heq
    split at hget
    · cases hget
      exact heq ▸ hafter
    · cases hget
  · exact h i running hget

/-! ### Steps -/

variable {store : DialogStore}

theorem Sound.start (h : store.Sound) (call : SubscribeCall) :
  (store.start call).Sound
  where
  calls := by
    intro index running hget
    simp only [DialogStore.start, List.getElem?_append] at hget
    split at hget
    · exact h.calls index running hget
    have heq : index = store.calls.length := by
      by_contra hne
      rw [List.getElem?_eq_none (by simp; omega)] at hget
      cases hget
    subst heq
    rw [Nat.sub_self, List.getElem?_cons_zero] at hget
    cases hget
    cases call with
    | put dialog => exact ⟨by simp, by simp, by simp [SubscribeCall.IsRemoval], by simp⟩
    | update | remove => exact ⟨by simp, by simp, by simp, by simp⟩
  memory := h.memory.append _
  cache := h.cache.append _
  changed := by
    intro hnone running hmem hchanges
    obtain hmem | hmem := mem_append.mp hmem
    · exact h.changed hnone running hmem hchanges
    · rw [mem_singleton.mp hmem] at hchanges
      cases hchanges
  stored := by
    intro hnone running hmem
    obtain hmem | hmem := mem_append.mp hmem
    · exact h.stored hnone running hmem
    · rw [mem_singleton.mp hmem]

theorem not_put_of_changed_eq_none {memory : Option Version} {call : SubscribeCall}
    (h : changed memory index call = none) (dialog : SubscribeDialog) :
  call ≠ .put dialog
  := by
  rintro rfl
  cases h

theorem sound_changed (h : Running.Sound index running) (hchanges : running.changes = true)
    {memory : Option Version} (hmade : changed memory index running.call = some entry) :
  Running.Sound index { running with entry := some entry, changes := false }
    ∧ ∀ made, running.entry = some made → some entry = some made
  := by
  obtain ⟨call, known, changes, stores⟩ := running
  cases call with
  | put dialog =>
    cases hmade
    have hknown := h.known dialog rfl
    refine ⟨⟨?_, by simp, by simp [SubscribeCall.IsRemoval], by simp⟩, ?_⟩
    · rintro _ ⟨⟩
      rfl
    · intro made hmade
      exact hknown.symm.trans hmade
  | update mutate =>
    obtain ⟨version, -, rfl⟩ := Option.map_eq_some_iff.mp hmade
    have hunknown := h.unknown hchanges (by simp)
    refine ⟨⟨by simp, by simp, by simp [SubscribeCall.IsRemoval], by simp⟩, ?_⟩
    intro made hmade
    cases hunknown.symm.trans hmade
  | remove =>
    cases hmade
    have hunknown := h.unknown hchanges (by simp)
    refine ⟨⟨by simp, by simp, by simp [SubscribeCall.IsRemoval], by simp⟩, ?_⟩
    intro made hmade
    cases hunknown.symm.trans hmade

theorem Sound.change (h : store.Sound) (index : ℕ) :
  (store.change index).Sound
  := by
  unfold DialogStore.change
  split
  · exact h
  rename_i running hget
  have hsound := h.calls index running hget
  split
  · rename_i hchanges
    split
    · rename_i hnothing
      have hupdate := hsound.unknown hchanges (not_put_of_changed_eq_none hnothing)
      refine ⟨?_, ?_, ?_, ?_, ?_⟩
      · exact forall_set h.calls ⟨hsound.known, by simp, hsound.removal, hsound.writer⟩
      · exact h.memory.set hget fun _ hmade => hmade
      · exact h.cache.set hget fun _ hmade => hmade
      · intro hnone other hmem hother
        obtain hmem | rfl := mem_or_eq_of_mem_set hmem
        · exact h.changed hnone other hmem hother
        · exact hupdate
      · intro hnone other hmem
        obtain hmem | rfl := mem_or_eq_of_mem_set hmem
        · exact h.stored hnone other hmem
        · exact h.stored hnone running (mem_of_getElem? hget)
    · rename_i entry hmade
      obtain ⟨hafter, hkeep⟩ := sound_changed hsound hchanges hmade
      refine ⟨forall_set h.calls hafter, written_set hget rfl, h.cache.set hget hkeep, ?_, ?_⟩
      · intro hnone
        cases hnone
      intro hnone other hmem
      obtain hmem | rfl := mem_or_eq_of_mem_set hmem
      · exact h.stored hnone other hmem
      · exact h.stored hnone running (mem_of_getElem? hget)
  · exact h

theorem Sound.runTask (h : store.Sound) (index : ℕ) :
  (store.runTask index).Sound
  := by
  unfold DialogStore.runTask
  split
  · exact h
  rename_i running hget
  have hsound := h.calls index running hget
  split
  · exact h
  rename_i entry hentry
  split
  · refine ⟨?_, h.memory.set hget fun _ hmade => hmade, written_set hget hentry, ?_, ?_⟩
    · exact forall_set h.calls ⟨hsound.known, hsound.unknown, hsound.removal, hsound.writer⟩
    · intro hnone other hmem hother
      obtain hmem | rfl := mem_or_eq_of_mem_set hmem
      · exact h.changed hnone other hmem hother
      · exact h.changed hnone running (mem_of_getElem? hget) hother
    · intro hnone
      cases hnone
  · exact h

/-! ### Runs -/

/-- Every run is sound. -/
theorem sound_run (inputs : List Input) :
  (machine.run {} inputs).Sound
  := by
  have hinvariant : machine.Invariant Sound := by
    intro store input h
    cases input with
    | start call => exact h.start call
    | change index => exact h.change index
    | task index => exact h.runTask index
  apply hinvariant.run
  exact ⟨by simp, rfl, rfl, by simp, by simp⟩

/-- The call at an index removes the dialog. -/
def Removes (store : DialogStore) (last : Option ℕ) : Prop :=
  ∃ index running, last = some index ∧ store.calls[index]? = some running
    ∧ running.call.IsRemoval

theorem Sound.removes_iff (h : store.Sound) (hwritten : Written store.calls (some index) entry) :
  store.Removes (some index) ↔ entry = none
  := by
  obtain ⟨running, hget, hentry⟩ := hwritten
  rw [(h.calls index running hget).removal entry hentry]
  constructor
  · rintro ⟨i, other, ⟨⟩, hother, hcall⟩
    rw [hget] at hother
    cases hother
    exact hcall
  · intro hcall
    exact ⟨index, running, rfl, hget, hcall⟩

theorem Sound.eq_iff (h : store.Sound) {i j : ℕ} {a b : Option Version}
    (ha : Written store.calls (some i) a) (hb : Written store.calls (some j) b) :
  a = b ↔ i = j ∨ store.Removes (some i) ∧ store.Removes (some j)
  := by
  rw [h.removes_iff ha, h.removes_iff hb]
  obtain ⟨first, hfirst, hfirst'⟩ := ha
  obtain ⟨second, hsecond, hsecond'⟩ := hb
  constructor
  · rintro rfl
    cases a with
    | none => exact .inr ⟨rfl, rfl⟩
    | some version =>
    left
    rw [← (h.calls i first hfirst).writer version hfirst',
      (h.calls j second hsecond).writer version hsecond']
  · rintro (rfl | ⟨rfl, rfl⟩)
    · rw [hfirst] at hsecond
      cases hsecond
      exact Option.some.inj (hfirst'.symm.trans hsecond')
    · rfl

theorem Sound.lastChange_of_lastTask (h : store.Sound) (hfinished : store.Finished) :
  store.lastTask = none ↔ store.lastChange = none
  := by
  constructor
  · intro htask
    cases hchange : store.lastChange with
    | none => rfl
    | some index =>
    have hmemory := h.memory
    rw [hchange] at hmemory
    obtain ⟨running, hget, hentry⟩ := hmemory
    have hmem := mem_of_getElem? hget
    have hstores := (hfinished running hmem).2 (by simp [hentry])
    cases (h.stored htask running hmem).symm.trans hstores
  · intro hchange
    cases htask : store.lastTask with
    | none => rfl
    | some index =>
    have hcache := h.cache
    rw [htask] at hcache
    obtain ⟨running, hget, hentry⟩ := hcache
    have hmem := mem_of_getElem? hget
    have hnone := h.changed hchange running hmem (hfinished running hmem).1
    cases hnone.symm.trans hentry

/-- Calls on one dialog that have all finished.  The cache holds the version that memory holds if
and only if the last cache task to run was that of the call that changed memory last, or both calls
removed the dialog.  If it does, a dialog is read as memory has it, also by a new process. -/
theorem cache_eq_memory_iff (inputs : List Input) (h : (machine.run {} inputs).Finished) :
  let store := machine.run {} inputs
  (store.cache = store.memory ↔ store.lastTask = store.lastChange
      ∨ store.Removes store.lastTask ∧ store.Removes store.lastChange)
    ∧ (store.cache = store.memory →
      store.get = store.getLocal ∧ store.restart.get = store.getLocal)
  := by
  intro store
  have hsound := sound_run inputs
  have hmemory := hsound.memory
  have hcache := hsound.cache
  have hnone := hsound.lastChange_of_lastTask h
  refine ⟨?_, ?_⟩
  · cases htask : store.lastTask with
    | none =>
      have hchange : store.lastChange = none := hnone.mp htask
      rw [htask] at hcache
      rw [hchange] at hmemory ⊢
      rw [hcache, hmemory]
      simp
    | some i =>
      cases hchange : store.lastChange with
      | none => cases (hnone.mpr hchange).symm.trans htask
      | some j =>
      rw [htask] at hcache
      rw [hchange] at hmemory
      rw [hsound.eq_iff hcache hmemory, Option.some_inj]
  · intro hsame
    have hrestart : store.restart.get = store.getLocal := by
      rw [getLocal, ← hsame]
      rfl
    refine ⟨?_, hrestart⟩
    unfold get
    split
    · rfl
    · rw [getLocal, ← hsame]

def newDialog : SubscribeDialog :=
  ⟨"d".toList, 3600, 0, 0, 0, false⟩

/-- A dialog is put, updated and removed, and every task runs before the next call. -/
theorem cache_eq_memory_in_order :
  let store := machine.run {} [.start (.put newDialog), .task 0, .change 0,
    .start (.update nextCseq), .change 1, .task 1, .start .remove, .change 2,
    .task 2]
  store.cache = store.memory ∧ store.get = none
  := by
  have h := cache_eq_memory_iff [.start (.put newDialog), .task 0, .change 0,
    .start (.update nextCseq), .change 1, .task 1, .start .remove, .change 2,
    .task 2] (by decide)
  exact ⟨h.1.mpr (.inl rfl), rfl⟩

/-- A dialog is updated and removed, and the task of the update runs last. -/
def removedEarly : List Input :=
  [.start (.put newDialog), .task 0, .change 0, .start (.update nextCseq),
    .change 1, .start .remove, .change 2, .task 2, .task 1]

/-- A dialog is updated twice, and the task of the first update runs last. -/
def updatedTwice : List Input :=
  [.start (.put newDialog), .task 0, .change 0, .start (.update nextCseq),
    .change 1, .start (.update nextCseq), .change 2, .task 2, .task 1]

/-- A dialog that was removed is read again from the cache; and a new process goes on with a CSeq
that was used already. -/
theorem removed_dialog_is_back :
  (machine.run {} removedEarly).Finished ∧ (machine.run {} removedEarly).memory = none
    ∧ (machine.run {} removedEarly).get = some newDialog.nextCseq
    ∧ (machine.run {} updatedTwice).Finished
    ∧ (machine.run {} updatedTwice).get = some newDialog.nextCseq.nextCseq
    ∧ (machine.run {} updatedTwice).restart.get = some newDialog.nextCseq
  := by
  decide

end DialogStore

end Siphon.Subscribe
