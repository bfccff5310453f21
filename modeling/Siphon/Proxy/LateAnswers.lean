import Siphon.Proxy.Session

/-!
# Running totals of the session store

The store keeps the number of its late dialogs and of its forwarded answers beside the maps that
hold them.
-/

namespace IndexMap

variable {κ ν : Type} [DecidableEq κ] {m : IndexMap κ ν} {total : ℕ}

/-- A total that is the number of entries of a map. -/
def Counted (m : IndexMap κ ν) (total : ℕ) : Prop :=
  total = m.entries.length

theorem Counted.insert (h : m.Counted total) (k : κ) (v : ν) :
  (m.insert k v).Counted (if (m.get? k).isNone then total + 1 else total)
  := by
  rw [Counted, h, get?, IndexMap.insert, upsert]
  dsimp only
  generalize m.entries = es
  induction es with
  | nil => rfl
  | cons e es ih =>
  rw [upsertList, lookup_cons_eq]
  by_cases he : e.1 = k
  · simp [he]
  · simp only [he, Ne.symm he, if_false, List.length_cons, ← ih]
    split <;> rfl

theorem Counted.shiftRemove (h : m.Counted total) {k : κ} (hk : (m.get? k).isSome) :
  (m.shiftRemove k).Counted (total - 1)
  := by
  have hcount := m.count_shiftRemove k fun _ => true
  obtain ⟨v, hv⟩ := Option.isSome_iff_exists.mp hk
  simp only [count, hv, Option.any_some, Bool.toNat_true, List.countP_true] at hcount
  rw [Counted, h, ← hcount]
  rfl

omit [DecidableEq κ] in
theorem Counted.retain (h : m.Counted total) (p : ν → Bool) :
  (m.retain p).Counted (total - (m.entries.length - (m.retain p).entries.length))
  := by
  rw [Counted, h]
  apply Nat.sub_sub_self
  apply List.length_filter_le

end IndexMap

namespace Siphon.Proxy

open Transaction

/-- Each total is the number of entries of its map. -/
structure TotalsExact (s : ProxySessionStore) : Prop where
  lateDialogs : s.lateDialogs.Counted s.lateDialogTotal
  forwardedAnswers : s.forwardedAnswers.Counted s.forwardedAnswerTotal

namespace TotalsExact

open ProxySessionStore

variable {s : ProxySessionStore} (h : TotalsExact s)

include h

theorem forgetLateDialog {key : Option Text} {s' : ProxySessionStore}
    (hs : key.bind s.forgetLateDialog = some s') :
  TotalsExact s'
  := by
  obtain ⟨key, -, hs⟩ := Option.bind_eq_some_iff.mp hs
  rw [ProxySessionStore.forgetLateDialog] at hs
  split at hs
  · rename_i hkey
    cases hs
    exact ⟨h.lateDialogs.shiftRemove hkey, h.forwardedAnswers⟩
  · cases hs

theorem sweepLateDialogs (now : Instant) (backstop : Duration) :
  TotalsExact (s.sweepLateDialogs now backstop)
  := by
  rw [ProxySessionStore.sweepLateDialogs]
  split
  · exact h
  · exact ⟨h.lateDialogs.retain _, h.forwardedAnswers⟩

theorem sweepForwardedAnswers (now : Instant) (lifetime : Duration) :
  TotalsExact (s.sweepForwardedAnswers now lifetime)
  := by
  rw [ProxySessionStore.sweepForwardedAnswers]
  split
  · exact h
  · exact ⟨h.lateDialogs, h.forwardedAnswers.retain _⟩

variable [StdText]

theorem removeByServerKey (serverKey : TransactionKey) :
  TotalsExact (s.removeByServerKey serverKey)
  := by
  rw [ProxySessionStore.removeByServerKey]
  split <;> exact ⟨h.1, h.2⟩

theorem step (op : StoreOp) :
  TotalsExact (s.step op)
  := by
  cases op with
  | insert | insertForFork | markDialogAcked | keepDialogForAnswer => exact ⟨h.1, h.2⟩
  | registerForkBranch ref serverKey clientKey branch branchIndex =>
    rw [ProxySessionStore.step]
    split <;> exact ⟨h.1, h.2⟩
  | updateBranchConnectionId clientKey connectionId =>
    rw [ProxySessionStore.step, updateBranchConnectionId]
    split <;> exact ⟨h.1, h.2⟩
  | addClientKey serverKey clientKey =>
    rw [ProxySessionStore.step, addClientKey]
    split <;> exact ⟨h.1, h.2⟩
  | removeByServerKey serverKey => apply h.removeByServerKey
  | removeDialogKey request =>
    rw [ProxySessionStore.step, removeDialogKey]
    split <;> exact ⟨h.1, h.2⟩
  | keepDialogForLateAnswer now ref =>
    rw [ProxySessionStore.step, keepDialogForLateAnswer]
    split <;> exact ⟨h.1, h.2⟩
  | removeClientKey clientKey =>
    rw [ProxySessionStore.step, removeClientKey]
    split <;> exact ⟨h.1, h.2⟩
  | sweep now ttl ackGrace pending =>
    have hfold : TotalsExact ((s.staleServerKeys now ttl pending).foldl
        ProxySessionStore.removeByServerKey s) :=
      List.foldlRecOn _ _ h fun s hs serverKey _ => hs.removeByServerKey serverKey
    apply sweepForwardedAnswers
    apply sweepLateDialogs
    exact ⟨hfold.1, hfold.2⟩
  | noteLateDialog now response =>
    rw [ProxySessionStore.step, noteLateDialog]
    split
    · exact ⟨h.lateDialogs.insert _ _, h.forwardedAnswers⟩
    · exact h
  | takeLateDialog bye =>
    rw [ProxySessionStore.step, takeLateDialog]
    split
    · exact h
    · split
      · exact h.forgetLateDialog ‹_›
      · split
        · exact h.forgetLateDialog ‹_›
        · exact h
  | noteForwardedAnswer answer =>
    rw [ProxySessionStore.step, noteForwardedAnswer]
    split
    · exact ⟨h.lateDialogs, h.forwardedAnswers.insert _ _⟩
    · exact h
  | forgetForwardedAnswer ack =>
    rw [ProxySessionStore.step, forgetForwardedAnswer]
    split
    · exact h
    · split
      · split
        · exact ⟨h.lateDialogs, h.forwardedAnswers.shiftRemove ‹_›⟩
        · exact h
      · exact h

end TotalsExact

/-- A call of the store, or a sweep of one of the two maps with any limit. -/
inductive LateOp where
  | call (op : StoreOp)
  | sweepLateDialogs (now : Instant) (backstop : Duration)
  | sweepForwardedAnswers (now : Instant) (lifetime : Duration)

def lateMachine [StdText] : Machine ProxySessionStore LateOp Unit where
  step s
    | .call op => (s.step op, [])
    | .sweepLateDialogs now backstop => (s.sweepLateDialogs now backstop, [])
    | .sweepForwardedAnswers now lifetime => (s.sweepForwardedAnswers now lifetime, [])

/-- After any calls and sweeps each total is the number of entries of its map. -/
theorem totals_exact [StdText] (ops : List LateOp) :
  TotalsExact (lateMachine.run .new ops)
  := by
  apply Machine.Invariant.run
  · intro s op h
    cases op with
    | call op => apply h.step
    | sweepLateDialogs now backstop => apply h.sweepLateDialogs
    | sweepForwardedAnswers now lifetime => apply h.sweepForwardedAnswers
  · exact ⟨rfl, rfl⟩

/-- The total never hides an answer: in any run a response finds the one of its key within its
lifetime, an ACK forgets that of its key, a sweep those past the limit, and neither any other. -/
theorem answers_found [StdText] (ops : List LateOp) (now : Instant) (lifetime : Duration)
    (message : SipMessage) (key : Text) :
  let s := lateMachine.run .new ops
  s.forwardedAnswer now message = (answerKey message).bind (fun key =>
      (s.forwardedAnswers.get? key).filter (now - ·.forwardedAt ≤ forwardedAnswerLifetime))
    ∧ (s.forgetForwardedAnswer message).forwardedAnswers.get? key
      = (if answerKey message = some key then none else s.forwardedAnswers.get? key)
    ∧ (s.sweepForwardedAnswers now lifetime).forwardedAnswers.get? key
      = (s.forwardedAnswers.get? key).filter (now - ·.forwardedAt ≤ lifetime)
  := by
  intro s
  have hexact : TotalsExact s := by
    refine Machine.Invariant.run (fun s op h => ?_) ⟨rfl, rfl⟩ ops
    cases op with
    | call => apply h.step
    | sweepLateDialogs => apply h.sweepLateDialogs
    | sweepForwardedAnswers => apply h.sweepForwardedAnswers
  have hnone (hzero : s.forwardedAnswerTotal = 0) key : s.forwardedAnswers.get? key = none := by
    rw [hexact.forwardedAnswers, List.length_eq_zero_iff] at hzero
    rw [IndexMap.get?, hzero]
    rfl
  refine ⟨?_, ?_, ?_⟩
  · rw [ProxySessionStore.forwardedAnswer]
    cases answerKey message with
    | none => grind
    | some key => cases hkey : s.forwardedAnswers.get? key <;> grind
  · grind [ProxySessionStore.forgetForwardedAnswer, IndexMap.get?_shiftRemove,
      Option.not_isSome_iff_eq_none]
  · grind [ProxySessionStore.sweepForwardedAnswers, IndexMap.get?_retain]

end Siphon.Proxy
