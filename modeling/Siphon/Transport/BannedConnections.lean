import Siphon.Library.Holdings
import Siphon.Transport.Disconnect

/-!
# A banned source keeps no connection

The ban is in the store before its connections are looked for, and a connection is in the registry
before it looks for a ban, so one of the two finds the other.
-/

namespace Siphon.Transport

open List Connections IndexMap

open Security

def ServePhase.registered : ServePhase → Option Registered
  | .rereading connection | .serving connection | .waiting connection
  | .leaving connection _ => some connection
  | .signal _ _ | .registering _ _ | .left _ _ => none

def ServePhase.served : ServePhase → Option Registered
  | .serving connection | .waiting connection => some connection
  | _ => none

/-- Nothing is left to do but to serve: a signal is done, a connection is served or gone. -/
def ServePhase.finished : ServePhase → Bool
  | .signal _ stage => stage = .done
  | .serving _ | .waiting _ | .left _ _ => true
  | .registering _ _ | .rereading _ | .leaving _ _ => false

/-- A signal that has inserted a ban and not looked for connections yet. -/
def ServePhase.scans (source : IpAddr) : ServePhase → Bool
  | .signal received (.commanding _ true) | .signal received .closing => received.source = source
  | _ => false

def Connections.signalled (connections : Connections) (id : ConnectionId) : Bool :=
  (connections.live.get? id).any fun entry => entry.close.set

/-- The entry of a connection is its own. -/
structure Holds (connections : Connections) (connection : Registered) : Prop where
  fresh : connection.id.id < connections.nextId
  entry : ∃ close, connections.live.get? connection.id =
    some ⟨connection.peer, connection.inbound, close⟩

variable {policy : BanPolicy} {trusted : IpAddr → Bool} {connections : Connections}
  {move : ServeMove} {phase : ServePhase}

/-! ### What one access does -/

theorem access_signal (received : AbuseSignal) (stage : SignalStage) :
  connections.access policy trusted move (.signal received stage) =
    ({ connections with
        bans := (received.access policy trusted connections.bans stage).1
        live := if stage = .closing then closeBannedSource received.source connections.live
          else connections.live },
      .signal received (received.access policy trusted connections.bans stage).2, [])
  := by
  cases stage <;> rfl

/-- A connection that is served leaves, or waits with no entry but its own changed. -/
theorem access_served {own : Registered} (h : phase.served = some own) :
  connections.access policy trusted move phase =
      (connections, .leaving own (if move.ends then .ended else .closed), [])
      ∧ (move.ends = true ∨ connections.signalled own.id = true)
    ∨ ∃ live, connections.access policy trusted move phase =
        ({ connections with live }, .waiting own, [])
      ∧ connections.signalled own.id = false
      ∧ (∀ id ≠ own.id, live.get? id = connections.live.get? id)
      ∧ ∀ entry, connections.live.get? own.id = some entry →
        ∃ close, live.get? own.id = some { entry with close }
  := by
  rw [signalled]
  cases phase with
  | serving | waiting =>
    cases h
    simp only [access, firstWait]
    by_cases hends : move.ends = true
    · exact .inl ⟨by simp only [if_pos hends], .inl hends⟩
    simp only [if_neg hends]
    split
    · rename_i hset
      exact .inl ⟨rfl, .inr hset⟩
    · rename_i hset
      refine .inr ⟨_, rfl, Bool.eq_false_iff.mpr hset, ?_, ?_⟩
      · intro id hne
        simp [get?_modify, hne]
      · intro entry hentry
        simp only [get?_modify, hentry, if_true, Option.map_some]
        exact ⟨_, rfl⟩
  | signal | registering | rereading | leaving | left => cases h

theorem registered_of_served {own : Registered} (h : phase.served = some own) :
  phase.registered = some own
  := by
  cases phase with
  | serving | waiting => exact h
  | signal | registering | rereading | leaving | left => cases h

variable {source : IpAddr}

theorem isSome_row_access
    (h : ((connections.access policy trusted move phase).1.bans.store.bans.get? source).isSome
      = true) :
  (connections.bans.store.bans.get? source).isSome = true
    ∨ ∃ received, phase = .signal received .inserting ∧ received.source = source
  := by
  cases hserved : phase.served with
  | some =>
    obtain ⟨hnext, _⟩ | ⟨_, hnext, _⟩ := access_served hserved <;> rw [hnext] at h <;> exact .inl h
  | none =>
  cases phase with
  | signal received stage =>
    rw [access_signal] at h
    obtain hrow | ⟨rfl, rfl⟩ := isSome_bans_access h
    · exact .inl hrow
    · exact .inr ⟨received, rfl, rfl⟩
  | rereading connection =>
    apply Or.inl
    simp only [access, AutoBanStore.isBannedAt] at h
    split at h
    · split at h
      · exact h
      split at h
      · exact h
      simp only [AutoBanStore.removeBan, get?_shiftRemove] at h
      split at h
      · cases h
      · exact h
    · exact h
  | serving | waiting => cases hserved
  | registering | leaving | left => exact .inl h

theorem get?_live_access {id : ConnectionId} {entry : LiveConnection}
    (hentry : connections.live.get? id = some entry) (hfresh : id.id < connections.nextId)
    (hother : phase.registered.map Registered.id ≠ some id) :
  (connections.access policy trusted move phase).1.live.get? id = some entry
    ∨ (connections.access policy trusted move phase).1.live.get? id
      = some { entry with close := entry.close.notifyOne }
  := by
  cases hserved : phase.served with
  | some connection =>
    rw [registered_of_served hserved] at hother
    have hne : id ≠ connection.id := fun h => hother (congrArg some h.symm)
    apply Or.inl
    obtain ⟨hnext, _⟩ | ⟨live, hnext, -, hothers, -⟩ := access_served hserved <;> rw [hnext]
    · exact hentry
    · exact (hothers id hne).trans hentry
  | none =>
  cases phase with
  | signal received stage =>
    rw [access_signal]
    split
    · rw [closeBannedSource, get?_mapValues, hentry, Option.map_some]
      split
      · exact .inr rfl
      · exact .inl rfl
    · exact .inl hentry
  | registering peer inbound =>
    have hne : id ≠ ⟨connections.nextId⟩ := by
      rintro rfl
      exact lt_irrefl _ hfresh
    apply Or.inl
    rw [access, get?_insert, if_neg hne]
    exact hentry
  | rereading | left => exact .inl hentry
  | serving | waiting => cases hserved
  | leaving connection why =>
    have hne : id ≠ connection.id := fun h => hother (congrArg some h.symm)
    apply Or.inl
    rw [access, get?_shiftRemove, if_neg hne]
    exact hentry

theorem nextId_access :
  connections.nextId ≤ (connections.access policy trusted move phase).1.nextId
  := by
  cases hserved : phase.served with
  | some => obtain ⟨hnext, _⟩ | ⟨_, hnext, _⟩ := access_served hserved <;> rw [hnext]
  | none =>
  cases phase with
  | signal received stage => rw [access_signal]
  | registering peer inbound => exact Nat.le_succ _
  | serving | waiting => cases hserved
  | rereading | leaving | left => rfl

variable {connection : Registered}

theorem Holds.access (h : Holds connections connection)
    (hother : phase.registered.map Registered.id ≠ some connection.id) :
  Holds (connections.access policy trusted move phase).1 connection
  := by
  refine ⟨h.fresh.trans_le nextId_access, ?_⟩
  obtain ⟨close, hentry⟩ := h.entry
  obtain hsame | hset := get?_live_access hentry h.fresh hother
  · exact ⟨close, hsame⟩
  · exact ⟨close.notifyOne, hset⟩

theorem Notify.set_notifyOne (notify : Notify) :
  notify.notifyOne.set = true
  := by
  cases notify <;> rfl

theorem signalled_access (h : Holds connections connection)
    (hother : phase.registered.map Registered.id ≠ some connection.id)
    (hset : connections.signalled connection.id = true) :
  (connections.access policy trusted move phase).1.signalled connection.id = true
  := by
  obtain ⟨close, hentry⟩ := h.entry
  rw [signalled, hentry] at hset
  obtain hsame | hset' := get?_live_access hentry h.fresh hother
  · rwa [signalled, hsame]
  · rw [signalled, hset']
    exact Notify.set_notifyOne close

theorem registered_access (hholds : ∀ own, phase.registered = some own → Holds connections own)
    (h : (connections.access policy trusted move phase).2.1.registered = some connection) :
  Holds (connections.access policy trusted move phase).1 connection
    ∧ (phase.registered = some connection ∨ connection.id.id = connections.nextId)
  := by
  cases hserved : phase.served with
  | some own =>
    have hregistered := registered_of_served hserved
    obtain ⟨hfresh, close, hentry⟩ := hholds own hregistered
    obtain ⟨hnext, _⟩ | ⟨live, hnext, -, -, hown⟩ := access_served hserved <;>
      rw [hnext] at h ⊢ <;> cases h
    · exact ⟨⟨hfresh, close, hentry⟩, .inl hregistered⟩
    · exact ⟨⟨hfresh, hown _ hentry⟩, .inl hregistered⟩
  | none =>
  cases phase with
  | signal received stage =>
    rw [access_signal] at h
    cases h
  | registering peer inbound =>
    obtain rfl : ⟨⟨connections.nextId⟩, peer, inbound⟩ = connection := by
      cases inbound <;> exact Option.some.inj h
    refine ⟨⟨Nat.lt_succ_self _, .idle, ?_⟩, .inr rfl⟩
    rw [access, get?_insert, if_pos rfl]
  | rereading own =>
    obtain rfl : own = connection := by
      simp only [access] at h
      split at h <;> exact Option.some.inj h
    exact ⟨⟨(hholds own rfl).fresh, (hholds own rfl).entry⟩, .inl rfl⟩
  | serving | waiting => cases hserved
  | leaving | left => cases h

theorem signalled_closing {received : AbuseSignal} (h : Holds connections connection)
    (hinbound : connection.inbound = true) (hsource : connection.peer.ip = received.source) :
  (connections.access policy trusted move (.signal received .closing)).1.signalled connection.id
    = true
  := by
  obtain ⟨close, hentry⟩ := h.entry
  rw [signalled, access, closeBannedSource, get?_mapValues,
    hentry, Option.map_some, if_pos ⟨hinbound, hsource⟩]
  exact Notify.set_notifyOne close

/-- A connection a peer opened is served after an access if it was before and no signal is set, or
if its source had no ban. -/
theorem served_access
    (h : (connections.access policy trusted move phase).2.1.served = some connection)
    (hinbound : connection.inbound = true) (htrusted : trusted connection.peer.ip = false) :
  phase.served = some connection ∧ connections.signalled connection.id = false
    ∨ (connections.access policy trusted move phase).1.bans.store.bans.get? connection.peer.ip
      = none
  := by
  cases hserved : phase.served with
  | some =>
    obtain ⟨hnext, _⟩ | ⟨_, hnext, hset, _⟩ := access_served hserved <;> rw [hnext] at h <;> cases h
    exact .inl ⟨rfl, hset⟩
  | none =>
  cases phase with
  | signal received stage =>
    rw [access_signal] at h
    cases h
  | registering peer inbound =>
    cases inbound with
    | true => cases h
    | false =>
    cases h
    cases hinbound
  | rereading own =>
    simp only [access, AutoBanStore.isBannedAt] at h ⊢
    cases hrow : connections.bans.store.bans.get? own.peer.ip with
    | none =>
      simp only [hrow, Option.map_none, Bool.false_eq_true, if_false] at h ⊢
      cases h
      exact .inr hrow
    | some entry =>
      simp only [hrow, Option.map_some] at h ⊢
      by_cases htrust : trusted own.peer.ip = true
      · rw [if_pos htrust] at h
        cases h
        rw [htrust] at htrusted
        cases htrusted
      rw [if_neg htrust] at h ⊢
      by_cases hforce : move.now < entry.expiry
      · rw [if_pos hforce] at h
        cases h
      rw [if_neg hforce] at h ⊢
      cases h
      apply Or.inr
      simp only [AutoBanStore.removeBan, get?_shiftRemove, if_true]
  | serving | waiting => cases hserved
  | leaving | left => cases h

theorem scans_access (h : phase.scans source = true) :
  (connections.access policy trusted move phase).2.1.scans source = true
    ∨ ∃ received, phase = .signal received .closing ∧ received.source = source
  := by
  cases phase with
  | signal received stage =>
    cases stage with
    | commanding ttl newlyBanned =>
      cases newlyBanned with
      | true => exact .inl h
      | false => cases h
    | closing => exact .inr ⟨received, rfl, of_decide_eq_true h⟩
    | checking | rechecking | extending | reaping | counting | clearing | inserting | done =>
      cases h
  | registering | rereading | serving | waiting | leaving | left => cases h

theorem untrusted_signal {received : AbuseSignal} {stage : SignalStage}
    (h : ∀ before, phase = .signal received before → before ≠ .checking → before ≠ .done →
      trusted received.source = false)
    (hnext : (connections.access policy trusted move phase).2.1 = .signal received stage)
    (hdone : stage ≠ .done) :
  trusted received.source = false
  := by
  cases hserved : phase.served with
  | some =>
    obtain ⟨heq, _⟩ | ⟨_, heq, _⟩ := access_served hserved <;> rw [heq] at hnext <;> cases hnext
  | none =>
  cases phase with
  | signal own before =>
    rw [access_signal] at hnext
    cases hnext
    cases before with
    | checking =>
      simp only [AbuseSignal.access] at hdone
      split at hdone
      · exact absurd rfl hdone
      split at hdone
      · exact absurd rfl hdone
      · rename_i htrusted
        exact Bool.eq_false_iff.mpr htrusted
    | done => exact absurd rfl hdone
    | rechecking | extending | reaping | counting | clearing | inserting | commanding | closing =>
      exact h _ rfl (by simp) (by simp)
  | registering peer inbound => cases inbound <;> cases hnext
  | rereading own =>
    simp only [access] at hnext
    split at hnext <;> cases hnext
  | serving | waiting => cases hserved
  | leaving | left => cases hnext

/-! ### What holds in every interleaving -/

/-- Two threads have different connections. -/
def Distinct (phase other : ServePhase) : Prop :=
  ∀ connection ∈ phase.registered, ∀ found ∈ other.registered, connection.id ≠ found.id

/-- What every step keeps. -/
structure Watched (trusted : IpAddr → Bool) (connections : Connections)
    (threads : List ServePhase) : Prop where
  holds : ∀ phase ∈ threads, ∀ connection ∈ phase.registered, Holds connections connection
  distinct : threads.Pairwise Distinct
  untrusted : ∀ source, (connections.bans.store.bans.get? source).isSome = true →
    trusted source = false
  signals : ∀ received stage, .signal received stage ∈ threads → stage ≠ .checking →
    stage ≠ .done → trusted received.source = false
  /-- The ban has found the connection, or is about to. -/
  watched : ∀ phase ∈ threads, ∀ connection ∈ phase.served, connection.inbound = true →
    (connections.bans.store.bans.get? connection.peer.ip).isSome = true →
    connections.signalled connection.id = true
      ∨ ∃ other ∈ threads, other.scans connection.peer.ip = true

variable {other : ServePhase}

theorem Distinct.symm (h : Distinct phase other) :
  Distinct other phase
  := fun connection hconnection found hfound => (h found hfound connection hconnection).symm

theorem Watched.perm {threads others : List ServePhase} (hperm : threads.Perm others)
    (h : Watched trusted connections threads) :
  Watched trusted connections others
  := by
  refine ⟨?_, ?_, h.untrusted, ?_, ?_⟩
  · intro phase hphase
    exact h.holds phase (hperm.mem_iff.mpr hphase)
  · exact (hperm.pairwise_iff Distinct.symm).mp h.distinct
  · intro received stage hsignal
    exact h.signals received stage (hperm.mem_iff.mpr hsignal)
  · intro phase hphase connection hconnection hinbound hrow
    obtain hset | ⟨other, hother, hscans⟩ :=
      h.watched phase (hperm.mem_iff.mpr hphase) connection hconnection hinbound hrow
    · exact .inl hset
    · exact .inr ⟨other, hperm.mem_iff.mp hother, hscans⟩

section

variable {others : List ServePhase} (h : Watched trusted connections (phase :: others))

include h

theorem Watched.ne_own (hother : other ∈ others) (hconnection : connection ∈ other.registered) :
  phase.registered.map Registered.id ≠ some connection.id
  := by
  intro hid
  obtain ⟨own, hown, heq⟩ := Option.map_eq_some_iff.mp hid
  have hdistinct := (pairwise_cons.mp h.distinct).1 other hother
  exact hdistinct own hown connection hconnection heq

theorem Watched.distinct_access :
  ((connections.access policy trusted move phase).2.1 :: others).Pairwise Distinct
  := by
  obtain ⟨hfirst, hrest⟩ := pairwise_cons.mp h.distinct
  refine pairwise_cons.mpr ⟨?_, hrest⟩
  intro other hother connection hconnection found hfound
  have hown := registered_access (h.holds phase mem_cons_self) hconnection
  obtain hsame | hnew := hown.2
  · exact hfirst other hother connection hsame found hfound
  intro heq
  have hfresh := (h.holds other (mem_cons_of_mem _ hother) found hfound).fresh
  rw [← heq, hnew] at hfresh
  exact lt_irrefl _ hfresh

theorem Watched.untrusted_access (source : IpAddr)
    (hrow : ((connections.access policy trusted move phase).1.bans.store.bans.get? source).isSome
      = true) :
  trusted source = false
  := by
  obtain hbefore | ⟨received, rfl, rfl⟩ := isSome_row_access hrow
  · exact h.untrusted source hbefore
  · exact h.signals received .inserting mem_cons_self nofun nofun

theorem Watched.watched_access (hother : other ∈ others) (hconnection : connection ∈ other.served)
    (hinbound : connection.inbound = true)
    (hrow : ((connections.access policy trusted move phase).1.bans.store.bans.get?
      connection.peer.ip).isSome = true) :
  (connections.access policy trusted move phase).1.signalled connection.id = true
    ∨ ∃ scanning ∈ (connections.access policy trusted move phase).2.1 :: others,
      scanning.scans connection.peer.ip = true
  := by
  have hmem := mem_cons_of_mem phase hother
  have hregistered := registered_of_served hconnection
  have hholds := h.holds other hmem connection hregistered
  obtain hbefore | ⟨received, rfl, hsource⟩ := isSome_row_access hrow
  · obtain hset | ⟨scanning, hscanning, hscans⟩ :=
      h.watched other hmem connection hconnection hinbound hbefore
    · exact .inl (signalled_access hholds (h.ne_own hother hregistered) hset)
    obtain rfl | hscanning := mem_cons.mp hscanning
    · obtain hstill | ⟨received, rfl, hsource⟩ := scans_access hscans
      · exact .inr ⟨_, mem_cons_self, hstill⟩
      · exact .inl (signalled_closing hholds hinbound hsource.symm)
    · exact .inr ⟨scanning, mem_cons_of_mem _ hscanning, hscans⟩
  · -- the ban is inserted here, so its scan is to come
    exact .inr ⟨_, mem_cons_self, decide_eq_true hsource⟩

theorem Watched.watched_own
    (hconnection : connection ∈ (connections.access policy trusted move phase).2.1.served)
    (hinbound : connection.inbound = true)
    (hrow : ((connections.access policy trusted move phase).1.bans.store.bans.get?
      connection.peer.ip).isSome = true) :
  ∃ scanning ∈ others, scanning.scans connection.peer.ip = true
  := by
  have htrusted := h.untrusted_access _ hrow
  obtain ⟨hserved, hunset⟩ | hnone := served_access hconnection hinbound htrusted
  · have hbefore : (connections.bans.store.bans.get? connection.peer.ip).isSome = true := by
      refine (isSome_row_access hrow).resolve_right ?_
      rintro ⟨received, rfl, _⟩
      cases hserved
    obtain hset | ⟨scanning, hscanning, hscans⟩ :=
      h.watched phase mem_cons_self connection hserved hinbound hbefore
    · rw [hunset] at hset
      cases hset
    · obtain rfl | hscanning := mem_cons.mp hscanning
      · cases scanning <;> cases hserved <;> cases hscans
      · exact ⟨scanning, hscanning, hscans⟩
  · rw [hnone] at hrow
    cases hrow

theorem Watched.access :
  Watched trusted (connections.access policy trusted move phase).1
    ((connections.access policy trusted move phase).2.1 :: others)
  := by
  refine ⟨?_, h.distinct_access, h.untrusted_access, ?_, ?_⟩
  · intro other hother connection hconnection
    obtain rfl | hother := mem_cons.mp hother
    · exact (registered_access (h.holds phase mem_cons_self) hconnection).1
    · have hholds := h.holds other (mem_cons_of_mem _ hother) connection hconnection
      exact hholds.access (h.ne_own hother hconnection)
  · intro received stage hsignal hchecking hdone
    obtain heq | hsignal := mem_cons.mp hsignal
    · refine untrusted_signal ?_ heq.symm hdone
      rintro before rfl
      exact h.signals received before mem_cons_self
    · exact h.signals received stage (mem_cons_of_mem _ hsignal) hchecking hdone
  · intro other hother connection hconnection hinbound hrow
    obtain rfl | hother := mem_cons.mp hother
    · obtain ⟨scanning, hscanning, hscans⟩ := h.watched_own hconnection hinbound hrow
      exact .inr ⟨scanning, mem_cons_of_mem _ hscanning, hscans⟩
    · exact h.watched_access hother hconnection hinbound hrow

end

theorem Watched.begin {threads : List ServePhase} (h : Watched trusted connections threads)
    (call : ServeCall) :
  Watched trusted connections (call.start :: threads)
  := by
  refine ⟨?_, pairwise_cons.mpr ⟨?_, h.distinct⟩, h.untrusted, ?_, ?_⟩
  · intro phase hphase connection hconnection
    obtain rfl | hphase := mem_cons.mp hphase
    · cases call <;> cases hconnection
    · exact h.holds phase hphase connection hconnection
  · intro other _ connection hconnection
    cases call <;> cases hconnection
  · intro received stage hsignal hchecking hdone
    obtain heq | hsignal := mem_cons.mp hsignal
    · cases call with
      | signal received =>
        cases heq
        exact absurd rfl hchecking
      | serve peer inbound => cases heq
    · exact h.signals received stage hsignal hchecking hdone
  · intro phase hphase connection hconnection hinbound hrow
    obtain rfl | hphase := mem_cons.mp hphase
    · cases call <;> cases hconnection
    obtain hset | ⟨other, hother, hscans⟩ :=
      h.watched phase hphase connection hconnection hinbound hrow
    · exact .inl hset
    · exact .inr ⟨other, mem_cons_of_mem _ hother, hscans⟩

theorem watched_invariant (policy : BanPolicy) (trusted : IpAddr → Bool) :
  (serveThreads policy trusted).machine.Invariant fun state => Watched trusted state.1 state.2
  := by
  refine Threads.invariant ?_ ?_
  · intro connections threads call h
    exact (h.begin call).perm (perm_append_singleton _ _).symm
  · intro connections before phase after move h
    exact ((h.perm perm_middle).access).perm perm_middle.symm

theorem watched_new (trusted : IpAddr → Bool) :
  Watched trusted .new []
  := ⟨nofun, .nil, nofun, nofun, nofun⟩

/-! ### A signal is not lost -/

/-- The connection has a signal that it has not heard, or it is not served any more. -/
def Told (connections : Connections) (connection : Registered) (phase : ServePhase) : Prop :=
  (phase = .rereading connection ∨ phase.served = some connection)
      ∧ connections.signalled connection.id = true
    ∨ ∃ why, phase = .leaving connection why ∨ phase = .left connection.peer why

theorem leaving_access (hserved : phase.served = some connection)
    (hset : connections.signalled connection.id = true) :
  connections.access policy trusted move phase
    = (connections, .leaving connection (if move.ends then .ended else .closed), [])
  := by
  obtain ⟨hnext, _⟩ | ⟨_, _, hunset, _⟩ := access_served hserved
  · exact hnext
  · rw [hset] at hunset
    cases hunset

theorem Told.access_own (h : Told connections connection phase) :
  Told (connections.access policy trusted move phase).1 connection
    (connections.access policy trusted move phase).2.1
  := by
  obtain ⟨rfl | hserved, hset⟩ | ⟨why, rfl | rfl⟩ := h
  · simp only [access]
    split
    · exact .inr ⟨.refused, .inl rfl⟩
    · exact .inl ⟨.inr rfl, hset⟩
  · rw [leaving_access hserved hset]
    exact .inr ⟨_, .inl rfl⟩
  · exact .inr ⟨why, .inr rfl⟩
  · exact .inr ⟨why, .inr rfl⟩

theorem Told.access_other {others : List ServePhase}
    (hwatched : Watched trusted connections (phase :: others)) (hother : other ∈ others)
    (h : Told connections connection other) :
  Told (connections.access policy trusted move phase).1 connection other
  := by
  obtain ⟨hopen, hset⟩ | hgone := h
  · have hregistered : other.registered = some connection := by
      obtain rfl | hserved := hopen
      · rfl
      · exact registered_of_served hserved
    have hholds := hwatched.holds other (mem_cons_of_mem _ hother) connection hregistered
    exact .inl ⟨hopen, signalled_access hholds (hwatched.ne_own hother hregistered) hset⟩
  · exact .inr hgone

theorem told_invariant (policy : BanPolicy) (trusted : IpAddr → Bool) (index : ℕ)
    (connection : Registered) :
  (serveThreads policy trusted).machine.Invariant fun state =>
    Watched trusted state.1 state.2
      ∧ ∃ phase, state.2[index]? = some phase ∧ Told state.1 connection phase
  := by
  refine @Threads.thread_invariant _ _ _ _ _ (serveThreads policy trusted) (Watched trusted)
    (fun connections phase => Told connections connection phase)
    (watched_invariant policy trusted) ?_ ?_ index
  · intro connections move phase h
    exact h.access_own
  · intro connections move before phase after other hwatched hother h
    exact h.access_other (hwatched.perm perm_middle) hother

/-! ### Finished runs -/

/-- A connection that a peer opened, at any point of its life. -/
def ServePhase.Inbound (peer : SocketAddr) (phase : ServePhase) : Prop :=
  phase = .registering peer true
    ∨ (∃ connection, connection.peer = peer ∧ connection.inbound = true
      ∧ phase.registered = some connection)
    ∨ ∃ why, phase = .left peer why

theorem ServePhase.Inbound.access {peer : SocketAddr} (h : phase.Inbound peer) :
  (connections.access policy trusted move phase).2.1.Inbound peer
  := by
  obtain rfl | ⟨connection, rfl, hinbound, hregistered⟩ | ⟨why, rfl⟩ := h
  · exact .inr (.inl ⟨_, rfl, rfl, rfl⟩)
  · cases hserved : phase.served with
    | some =>
      rw [registered_of_served hserved] at hregistered
      cases hregistered
      obtain ⟨hnext, _⟩ | ⟨_, hnext, _⟩ := access_served hserved <;> rw [hnext] <;>
        exact .inr (.inl ⟨connection, rfl, hinbound, rfl⟩)
    | none =>
    cases phase with
    | rereading own =>
      cases hregistered
      refine .inr (.inl ⟨connection, rfl, hinbound, ?_⟩)
      simp only [access]
      split <;> rfl
    | serving | waiting => cases hserved
    | leaving own why =>
      cases hregistered
      exact .inr (.inr ⟨why, rfl⟩)
    | signal | registering | left => cases hregistered
  · exact .inr (.inr ⟨why, rfl⟩)

theorem served_of_finished (h : phase.finished = true)
    (hregistered : phase.registered = some connection) :
  phase.served = some connection
  := by
  cases phase with
  | serving | waiting => exact hregistered
  | signal | registering | left => cases hregistered
  | rereading | leaving => cases h

theorem scans_of_finished (h : phase.finished = true) (source : IpAddr) :
  phase.scans source = false
  := by
  cases phase with
  | signal received stage =>
    obtain rfl : stage = .done := of_decide_eq_true h
    rfl
  | registering | rereading | serving | waiting | leaving | left => rfl

theorem isSome_of_isBannedAt {store : AutoBanStore} {now : ℕ}
    (h : (store.isBannedAt source now trusted).2 = true) :
  (store.bans.get? source).isSome = true
  := by
  rw [AutoBanStore.isBannedAt] at h
  cases hrow : store.bans.get? source with
  | none =>
    rw [hrow] at h
    cases h
  | some entry => rfl

/-- For every interleaving of connections being served and signals being weighed.  When nothing is
under way any more, a connection that a source opened while a ban of it is in force has gone or has
its signal to close.  A signal stays set until the connection leaves, and a connection that is
served and has it leaves with its next step. -/
theorem banned_source_keeps_no_connection (policy : BanPolicy) (trusted : IpAddr → Bool)
    (inputs : List (Threads.Input ServeCall ServeMove)) :
  let state := (serveThreads policy trusted).machine.run (new, [])
  ((∀ phase ∈ (state inputs).2, phase.finished = true) →
    ∀ before peer now, before ++ [.begin (.serve peer true)] <+: inputs →
      ((state inputs).1.bans.store.isBannedAt peer.ip now trusted).2 = true →
      ∃ phase, (state inputs).2[(state before).2.length]? = some phase
        ∧ ((∃ why, phase = .left peer why)
          ∨ ∃ connection, connection.peer = peer ∧ phase.served = some connection
            ∧ (state inputs).1.signalled connection.id = true))
    ∧ ∀ before after (index : ℕ) phase connection, before ++ after <+: inputs →
      (state before).2[index]? = some phase →
      phase = .rereading connection ∨ phase.served = some connection →
      (state before).1.signalled connection.id = true →
      (∃ later, (state (before ++ after)).2[index]? = some later
        ∧ Told (state (before ++ after)).1 connection later)
      ∧ (phase.served = some connection → ∀ move,
        ((state before).1.access policy trusted move phase).2.1
          = .leaving connection (if move.ends then .ended else .closed))
  := by
  intro state
  have hwatched : ∀ run, Watched trusted (state run).1 (state run).2 := by
    intro run
    exact (watched_invariant policy trusted).run (watched_new trusted) run
  constructor
  · intro hfinished before peer now hpre hbanned
    obtain ⟨rest, rfl⟩ := hpre
    have hbegun : ∃ phase, (state (before ++ [.begin (.serve peer true)])).2[
        (state before).2.length]? = some phase ∧ phase.Inbound peer := by
      refine ⟨.registering peer true, ?_, .inl rfl⟩
      simp only [state, Machine.run_append]
      exact List.getElem?_concat_length
    have hrun := @Threads.phase_run _ _ _ _ _ (serveThreads policy trusted)
      (ServePhase.Inbound peer) (fun _ _ _ h => h.access) _ _ hbegun rest
    obtain ⟨phase, hphase, hinbound⟩ := hrun
    rw [← Machine.run_append] at hphase
    refine ⟨phase, hphase, ?_⟩
    have hmem := mem_of_getElem? hphase
    have hrest := hfinished phase hmem
    obtain rfl | ⟨connection, rfl, hinbound, hregistered⟩ | hleft := hinbound
    · cases hrest
    · have hserved := served_of_finished hrest hregistered
      refine .inr ⟨connection, rfl, hserved, ?_⟩
      obtain hset | ⟨other, hother, hscans⟩ := (hwatched _).watched phase hmem connection hserved
        hinbound (isSome_of_isBannedAt hbanned)
      · exact hset
      · rw [scans_of_finished (hfinished other hother)] at hscans
        cases hscans
    · exact .inl hleft
  · intro before after index phase connection _ hphase hopen hset
    constructor
    · have htold := (told_invariant policy trusted index connection).run
        ⟨hwatched before, phase, hphase, .inl ⟨hopen, hset⟩⟩ after
      rw [← Machine.run_append] at htold
      exact htold.2
    · intro hserved move
      rw [leaving_access hserved hset]

end Siphon.Transport
