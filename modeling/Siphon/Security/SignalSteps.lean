import Siphon.Security.AutoBan

/-!
# A signal of abuse, step by step

The accesses that weighing one signal makes to what it shares with other threads: it reads whether
the source is trusted, extends the ban, counts the failure, inserts the ban, tells the kernel and
then closes what the source holds open.  Without other threads they come to what
`recordFailureWeightedAt` says.
-/

namespace Siphon.Security

/-- A signal of a source, with the reading of the clock it is weighed at. -/
structure AbuseSignal where
  source : IpAddr
  weight : ℕ
  now : ℕ

inductive SignalStage where
  /-- Read whether the source is trusted. -/
  | checking
  /-- Read it again, in `extend_ban_at`. -/
  | rechecking
  | extending
  /-- Remove a row that has lapsed. -/
  | reaping
  | counting
  /-- Remove the failures of a source that has reached the threshold. -/
  | clearing
  | inserting
  /-- Tell the kernel. -/
  | commanding (ttl : ℕ) (newlyBanned : Bool)
  /-- Close the connections the source holds. -/
  | closing
  | done
deriving DecidableEq

structure Bans where
  store : AutoBanStore
  kernel : KernelSet

def Bans.new : Bans :=
  ⟨.new, .empty⟩

/-- The next access of a signal, given which sources are trusted now. -/
def AbuseSignal.access (policy : BanPolicy) (trusted : IpAddr → Bool) (signal : AbuseSignal)
    (bans : Bans) : SignalStage → Bans × SignalStage
  | .checking =>
    if signal.weight = 0 then (bans, .done)
    else if trusted signal.source then (bans, .done)
    else (bans, .rechecking)
  | .rechecking => (bans, if trusted signal.source then .counting else .extending)
  | .extending =>
    match bans.store.extendEntry policy signal.source signal.now with
    | (store, .extended remaining) => ({ bans with store := store }, .commanding remaining false)
    | (store, .lapsed) => ({ bans with store := store }, .reaping)
    | (store, .absent) => ({ bans with store := store }, .counting)
  | .reaping => ({ bans with store := bans.store.removeBan signal.source }, .counting)
  | .counting =>
    match bans.store.countFailure policy signal.source signal.now signal.weight with
    | (store, true) => ({ bans with store := store }, .clearing)
    | (store, false) => ({ bans with store := store }, .done)
  | .clearing => ({ bans with store := bans.store.removeFailures signal.source }, .inserting)
  | .inserting =>
    ({ bans with store := bans.store.insertBan policy signal.source signal.now },
      .commanding policy.banDuration true)
  | .commanding ttl newlyBanned =>
    ({ bans with kernel := bans.kernel.apply signal.now (firewallBan signal.source ttl) },
      if newlyBanned then .closing else .done)
  | .closing => (bans, .done)
  | .done => (bans, .done)

variable {policy : BanPolicy} {trusted : IpAddr → Bool} {signal : AbuseSignal} {bans : Bans}

/-! ### Which sources are banned -/

/-- A source that is banned after an access was banned before, or the access inserts its ban. -/
theorem isSome_bans_access {stage : SignalStage} {source : IpAddr}
    (h : ((signal.access policy trusted bans stage).1.store.bans.get? source).isSome = true) :
  (bans.store.bans.get? source).isSome = true ∨ stage = .inserting ∧ source = signal.source
  := by
  cases stage with
  | extending =>
    apply Or.inl
    simp only [AbuseSignal.access, AutoBanStore.extendEntry] at h
    cases hrow : bans.store.bans.get? signal.source with
    | none => simpa [hrow] using h
    | some entry =>
    by_cases hlt : signal.now < entry.expiry
    · simp only [hrow, if_pos hlt, IndexMap.get?_insert] at h
      split at h
      · rename_i heq
        rw [heq, hrow]
        rfl
      · exact h
    · simpa [hrow, hlt] using h
  | reaping =>
    apply Or.inl
    simp only [AbuseSignal.access, AutoBanStore.removeBan, IndexMap.get?_shiftRemove] at h
    split at h
    · cases h
    · exact h
  | inserting =>
    simp only [AbuseSignal.access, AutoBanStore.insertBan, IndexMap.get?_insert] at h
    split at h
    · rename_i heq
      exact .inr ⟨rfl, heq⟩
    · exact .inl h
  | checking =>
    apply Or.inl
    simp only [AbuseSignal.access] at h
    split at h
    · exact h
    · split at h <;> exact h
  | counting =>
    apply Or.inl
    have hbans : (bans.store.countFailure policy signal.source signal.now signal.weight).1.bans
        = bans.store.bans := rfl
    simp only [AbuseSignal.access] at h
    generalize bans.store.countFailure policy signal.source signal.now signal.weight = counted
      at hbans h
    obtain ⟨store, reached⟩ := counted
    rw [← hbans]
    cases reached <;> exact h
  | rechecking | clearing | commanding | closing | done => exact .inl h

theorem isSome_bans_inserting :
  ((signal.access policy trusted bans .inserting).1.store.bans.get? signal.source).isSome = true
  := by
  simp [AbuseSignal.access, AutoBanStore.insertBan, IndexMap.get?_insert]

theorem get?_kernel_access (stage : SignalStage) (source : IpAddr) :
  (signal.access policy trusted bans stage).1.kernel.get? source = bans.kernel.get? source ∨
    (∃ ttl newlyBanned, stage = .commanding ttl newlyBanned) ∧ source = signal.source
  := by
  cases stage with
  | commanding ttl newlyBanned =>
    simp only [AbuseSignal.access, KernelSet.apply, firewallBan, IndexMap.get?_insert]
    split
    · rename_i heq
      exact .inr ⟨⟨ttl, newlyBanned, rfl⟩, heq⟩
    · exact .inl rfl
  | extending | counting =>
    apply Or.inl
    simp only [AbuseSignal.access]
    split <;> rfl
  | checking =>
    apply Or.inl
    simp only [AbuseSignal.access]
    split
    · rfl
    · split <;> rfl
  | rechecking | reaping | clearing | inserting | closing | done => exact .inl rfl

theorem isSome_kernel_commanding (ttl : ℕ) (newlyBanned : Bool) :
  ((signal.access policy trusted bans (.commanding ttl newlyBanned)).1.kernel.get?
    signal.source).isSome = true
  := by
  simp [AbuseSignal.access, KernelSet.apply, firewallBan, IndexMap.get?_insert]

/-! ### Without other threads -/

end Siphon.Security
