import Siphon.Security.ConnectionLimiter

/-!
# The connection ceilings are exact

What each atomic step does to the rows of the limiter and to the slots of its connection, and from
that, for every interleaving: the ceilings hold, the counts are what the connections hold as long as
that is less than a count can say, and nothing is left once they are gone.
-/

namespace Siphon.Security

open List ConnectionLimits ConnectionSlot IndexMap AcceptPhase Threads

/-! ### The maps of sources -/

section

variable (map : IndexMap IpAddr ℕ) (source : IpAddr)

theorem get?_takePerSource (limit : ℕ) (other : IpAddr) :
  (takePerSource map source limit).1.get? other =
    if (limit = 0 ∨ (map.get? source).getD 0 < limit) ∧ limit ≠ 0 ∧ other = source then
      some ((map.get? source).getD 0 + 1)
    else map.get? other
  := by
  rw [takePerSource]
  split
  · simp_all
  rename_i hlimit
  have hrow : ((map.orInsert source 0).get? source).getD 0 = (map.get? source).getD 0 := by
    simp [get?_orInsert]
  simp only [hrow]
  split
  · -- a row at its ceiling is there already
    rename_i hge
    rw [if_neg (by omega), get?_orInsert]
    split
    · rename_i hother
      subst hother
      cases hget : map.get? other with
      | none =>
        rw [hget] at hge
        exact absurd hge (by simpa using hlimit)
      | some entry => rfl
    · rfl
  · rename_i hlt
    rw [get?_modify, get?_orInsert, get?_orInsert]
    by_cases hother : other = source
    · subst hother
      simp [hlimit, Nat.lt_of_not_le hlt]
    · simp [hother]

theorem takePerSource_snd (limit : ℕ) :
  (takePerSource map source limit).2 = true
    ↔ limit = 0 ∨ (map.get? source).getD 0 < limit
  := by
  rw [takePerSource]
  split
  · simp_all
  rename_i hlimit
  have hrow : ((map.orInsert source 0).get? source).getD 0 = (map.get? source).getD 0 := by
    simp [get?_orInsert]
  simp only [hrow]
  split
  · simp only [Bool.false_eq_true, false_iff]
    omega
  · simp only [true_iff]
    omega

theorem get?_decrementPerSource (source other : IpAddr) :
  (decrementPerSource map source).1.get? other =
    if other = source then (map.get? source).map (· - 1) else map.get? other
  := by
  rw [decrementPerSource]
  split
  · rw [get?_modify]
  rename_i hnone
  split
  · rename_i hother
    rw [hother, hnone]
    rfl
  · rfl

theorem decrementPerSource_snd :
  (decrementPerSource map source).2 = true
    ↔ (decrementPerSource map source).1.get? source = some 0
  := by
  rw [get?_decrementPerSource, if_pos rfl, decrementPerSource]
  split
  · rename_i entry hentry
    simp [hentry]
  · rename_i hnone
    simp [hnone]

theorem get?_removeIfZero (source other : IpAddr) :
  (removeIfZero map source).get? other =
    if other = source ∧ map.get? source = some 0 then none else map.get? other
  := by
  rw [removeIfZero]
  split
  · rename_i hzero
    rw [get?_shiftRemove]
    simp [hzero]
  · rename_i hzero
    simp [hzero]

end

theorem takeGlobal_fst (counter limit : ℕ) :
  (takeGlobal counter limit).1 =
    if limit = 0 ∨ counter < limit then
      if limit = 0 then (counter + 1) % 2 ^ 32 else counter + 1
    else counter
  := by
  rw [takeGlobal]
  by_cases hlimit : limit = 0
  · simp [hlimit]
  · by_cases hlt : counter < limit <;> simp [hlimit, hlt]

theorem takeGlobal_snd (counter limit : ℕ) :
  (takeGlobal counter limit).2 = true ↔ limit = 0 ∨ counter < limit
  := by
  rw [takeGlobal]
  split
  · simp_all
  · split <;> simp_all

/-! ### The rows of the limiter -/

/-- The slot has a row of its own source. -/
def ConnectionSlot.ofSource : ConnectionSlot → Bool
  | .connectionsOf _ | .handshakesOf _ => true
  | .connections | .handshakes => false

def ConnectionLimits.countTaken (limits : ConnectionLimits) (slot : ConnectionSlot) (count : ℕ) :
    ℕ :=
  if limits.limit slot = 0 then (count + 1) % 2 ^ 32 else count + 1

namespace ConnectionLimiter

variable {limits : ConnectionLimits} {limiter : ConnectionLimiter} {slot : ConnectionSlot}

theorem take_snd :
  (limiter.take limits slot).2 = true
    ↔ limits.limit slot = 0 ∨ limiter.count slot < limits.limit slot
  := by
  cases slot with
  | connections | handshakes => exact takeGlobal_snd _ _
  | connectionsOf source | handshakesOf source => exact takePerSource_snd _ _ _

variable (other : ConnectionSlot)

theorem row_take :
  (limiter.take limits slot).1.row other =
    if (limiter.take limits slot).2 = true ∧ limits.counts slot = true ∧ other = slot then
      some (limits.countTaken slot (limiter.count slot))
    else limiter.row other
  := by
  simp only [take_snd]
  cases slot with
  | connections | handshakes =>
    cases other <;> simp [take, row, takeGlobal_fst, counts, limit, countTaken, count]
    split <;> rfl
  | connectionsOf source | handshakesOf source =>
    cases other <;> simp [take, row, get?_takePerSource, counts, limit, countTaken, count]
    split <;> simp_all

theorem row_give :
  (limiter.give slot).1.row other =
    if other = slot then (limiter.row slot).map (· - 1) else limiter.row other
  := by
  cases slot with
  | connections | handshakes => cases other <;> simp [give, row, releaseGlobal]
  | connectionsOf source | handshakesOf source =>
    cases other <;> simp [give, row, get?_decrementPerSource]

theorem give_snd :
  (limiter.give slot).2 = true ↔ slot.ofSource = true ∧ (limiter.give slot).1.row slot = some 0
  := by
  cases slot with
  | connections | handshakes => simp [give, ofSource]
  | connectionsOf source | handshakesOf source => simp [give, row, ofSource, decrementPerSource_snd]

theorem row_reap :
  (limiter.reap slot).row other =
    if other = slot ∧ slot.ofSource = true ∧ limiter.row slot = some 0 then none
    else limiter.row other
  := by
  cases slot with
  | connections | handshakes => simp [reap, ofSource]
  | connectionsOf source | handshakesOf source =>
    cases other <;> simp [reap, row, get?_removeIfZero, ofSource]

end ConnectionLimiter

/-! ### What a step does -/

/-- The slot whose row the connection may be about to remove. -/
def AcceptPhase.reaps : AcceptPhase → Option ConnectionSlot
  | .reaping slot _ _ => some slot
  | _ => none

variable {limits : ConnectionLimits} {limiter limiter' : ConnectionLimiter}
    {phase phase' : AcceptPhase}

/-- A step changes no row and nothing its connection holds, takes a slot, gives one back, or removes
a row. -/
inductive AcceptStep (limits : ConnectionLimits) (limiter : ConnectionLimiter) (phase : AcceptPhase)
    (limiter' : ConnectionLimiter) (phase' : AcceptPhase) : Prop where
  | same (hrow : ∀ slot, limiter'.row slot = limiter.row slot)
      (hholds : ∀ slot, limits.holds phase' slot = limits.holds phase slot)
      (hreaps : phase.reaps = none)
  | taken (slot : ConnectionSlot) (hcounts : limits.counts slot = true)
      (hlimit : limits.limit slot = 0 ∨ limiter.count slot < limits.limit slot)
      (hrow : ∀ other, limiter'.row other =
        if other = slot then some (limits.countTaken slot (limiter.count slot))
        else limiter.row other)
      (hslots : phase'.slots = slot :: phase.slots) (hreaps : phase.reaps = none)
  | given (slot : ConnectionSlot)
      (hrow : ∀ other, limiter'.row other =
        if other = slot then (limiter.row slot).map (· - 1) else limiter.row other)
      (hslots : phase.slots = slot :: phase'.slots) (hreaps : phase.reaps = none)
      (hleft : slot.ofSource = true → limiter'.row slot = some 0 → phase'.reaps = some slot)
  | reaped (slot : ConnectionSlot)
      (hrow : ∀ other, limiter'.row other =
        if other = slot ∧ slot.ofSource = true ∧ limiter.row slot = some 0 then none
        else limiter.row other)
      (hslots : phase'.slots = phase.slots) (hreaps : phase.reaps = some slot)

variable {slot : ConnectionSlot}

theorem ConnectionLimits.limit_ne_zero (hcounts : limits.counts slot = true)
    (hsource : slot.ofSource = true) :
  limits.limit slot ≠ 0
  := by
  cases slot with
  | connections | handshakes => cases hsource
  | connectionsOf source | handshakesOf source => exact of_decide_eq_true hcounts

theorem ConnectionLimits.holds_congr (h : phase'.slots = phase.slots) (slot : ConnectionSlot) :
  limits.holds phase' slot = limits.holds phase slot
  := by
  rw [holds, holds, h]

theorem AcceptStep.of_take (slot : ConnectionSlot) (ok no : AcceptPhase)
    (hok : ok.slots = slot :: phase.slots) (hno : no.slots = phase.slots)
    (hreaps : phase.reaps = none) :
  AcceptStep limits limiter phase (limiter.take limits slot).1
    (if (limiter.take limits slot).2 then ok else no)
  := by
  have hrow := @ConnectionLimiter.row_take limits limiter slot
  by_cases htaken : (limiter.take limits slot).2 = true
  · rw [if_pos htaken]
    by_cases hcounts : limits.counts slot = true
    · refine .taken slot hcounts (ConnectionLimiter.take_snd.mp htaken) ?_ hok hreaps
      simpa [htaken, hcounts] using hrow
    · -- without a ceiling the source is not counted
      refine .same ?_ ?_ hreaps
      · simpa [hcounts] using hrow
      · intro other
        rw [holds, holds, hok]
        split
        · rename_i hother
          have hne : slot ≠ other := by
            rintro rfl
            exact hcounts hother
          rw [count_cons_of_ne hne]
        · rfl
  · rw [if_neg htaken]
    refine .same ?_ (limits.holds_congr hno) hreaps
    simpa [htaken] using hrow

theorem slots_move (permit : AcceptPermit) (move : AcceptMove) :
  (permit.move move).slots = permit.slots
  := by
  obtain ⟨metered, source, handshakeHeld, connectionHeld⟩ := permit
  cases move <;> cases metered <;> cases handshakeHeld <;>
    simp [AcceptPermit.move, slots, AcceptOutcome.slots, AcceptPermit.slots,
      AcceptPermit.handshakeSlots, AcceptPermit.connectionSlots]

/-- What the steps of a connection can do. -/
theorem acceptStep (limits : ConnectionLimits) (limiter : ConnectionLimiter) (move : AcceptMove)
    (phase : AcceptPhase) :
  AcceptStep limits limiter phase (limiter.access limits move phase).1
    (limiter.access limits move phase).2.1
  := by
  cases phase with
  | checking source =>
    simp only [ConnectionLimiter.access]
    split <;> exact .same (fun _ => rfl) (fun _ => rfl) rfl
  | connections source =>
    have htake : AcceptStep limits limiter (.connections source) _ _ :=
      .of_take .connections (.connectionsOf source) (.giving [] (.refused .connections)) rfl rfl rfl
    simp only [ConnectionLimiter.access]
    split <;> simp_all
  | connectionsOf source =>
    have htake : AcceptStep limits limiter (.connectionsOf source) _ _ :=
      .of_take (.connectionsOf source) (.handshakes source)
        (.giving [.connections] (.refused .connectionsPerSource)) rfl rfl rfl
    simp only [ConnectionLimiter.access]
    split <;> simp_all
  | handshakes source =>
    have htake : AcceptStep limits limiter (.handshakes source) _ _ :=
      .of_take .handshakes (.handshakesOf source)
        (.giving [.connectionsOf source, .connections] (.refused .handshakes)) rfl rfl rfl
    simp only [ConnectionLimiter.access]
    split <;> simp_all
  | handshakesOf source =>
    have htake : AcceptStep limits limiter (.handshakesOf source) _ _ :=
      .of_take (.handshakesOf source) (.giving [] (.permit (.full source)))
        (.giving [.handshakes, .connectionsOf source, .connections]
          (.refused .handshakesPerSource)) rfl rfl rfl
    simp only [ConnectionLimiter.access]
    split <;> simp_all
  | giving slots outcome =>
    cases slots with
    | nil =>
      cases outcome with
      | permit permit =>
        refine .same (fun _ => rfl) (limits.holds_congr ?_) rfl
        exact slots_move permit move
      | _ => exact .same (fun _ => rfl) (fun _ => rfl) rfl
    | cons slot slots =>
      have hrow := @ConnectionLimiter.row_give limiter slot
      have hsnd := @ConnectionLimiter.give_snd limiter slot
      simp only [ConnectionLimiter.access]
      split
      · rename_i given hgive
        rw [hgive] at hrow
        exact .given slot hrow rfl rfl fun _ _ => rfl
      · rename_i given hgive
        rw [hgive] at hrow hsnd
        refine .given slot hrow rfl rfl fun hsource hzero => ?_
        exact absurd (hsnd.mpr ⟨hsource, hzero⟩) Bool.false_ne_true
  | reaping slot slots outcome =>
    exact .reaped slot ConnectionLimiter.row_reap rfl rfl

/-! ### Every interleaving -/

theorem ConnectionLimits.holds_cons (hslots : phase'.slots = slot :: phase.slots)
    (other : ConnectionSlot) :
  limits.holds phase' other =
    limits.holds phase other + if limits.counts slot = true ∧ other = slot then 1 else 0
  := by
  rw [holds, holds, hslots, count_cons]
  by_cases hother : other = slot
  · subst hother
    by_cases hcounts : limits.counts other = true <;> simp [hcounts]
  · have hne : ¬ slot = other := Ne.symm hother
    simp [hother, hne]

def Unmetered (limits : ConnectionLimits) (limiter : ConnectionLimiter) : Prop :=
  ∀ slot, limits.counts slot = false → limiter.row slot = none

section

variable (hstep : AcceptStep limits limiter phase limiter' phase')

include hstep

theorem unmetered_access (h : Unmetered limits limiter) :
  Unmetered limits limiter'
  := by
  intro other hother
  have hnone := h other hother
  cases hstep with
  | same hrow => rw [hrow, hnone]
  | taken slot hcounts _ hrow =>
    rw [hrow, if_neg, hnone]
    rintro rfl
    rw [hcounts] at hother
    cases hother
  | given slot hrow =>
    rw [hrow]
    split
    · rename_i heq
      rw [← heq, hnone]
      rfl
    · exact hnone
  | reaped slot hrow =>
    rw [hrow, hnone, ite_self]

theorem AcceptStep.count_cases :
  ((∀ slot, limiter'.count slot = limiter.count slot) ∧
      ∀ slot, limits.holds phase' slot = limits.holds phase slot)
    ∨ (∃ slot, limits.counts slot = true ∧
      (limits.limit slot = 0 ∨ limiter.count slot < limits.limit slot) ∧
      (∀ other, limiter'.count other =
        if other = slot then limits.countTaken slot (limiter.count slot)
        else limiter.count other) ∧
      ∀ other, limits.holds phase' other =
        limits.holds phase other + if other = slot then 1 else 0)
    ∨ (∃ slot, (∀ other, limiter'.count other =
        if other = slot then limiter.count slot - 1 else limiter.count other) ∧
      ∀ other, limits.holds phase other =
        limits.holds phase' other + if limits.counts slot = true ∧ other = slot then 1 else 0)
  := by
  cases hstep with
  | same hrow hholds =>
    refine .inl ⟨fun slot => ?_, hholds⟩
    rw [ConnectionLimiter.count, hrow, ConnectionLimiter.count]
  | taken slot hcounts hlimit hrow hslots =>
    refine .inr (.inl ⟨slot, hcounts, hlimit, fun other => ?_, fun other => ?_⟩)
    · rw [ConnectionLimiter.count, hrow]
      split <;> rfl
    · rw [limits.holds_cons hslots]
      simp [hcounts]
  | given slot hrow hslots =>
    refine .inr (.inr ⟨slot, fun other => ?_, limits.holds_cons hslots⟩)
    rw [ConnectionLimiter.count, hrow]
    split
    · rw [ConnectionLimiter.count]
      cases limiter.row slot <;> rfl
    · rfl
  | reaped slot hrow hslots =>
    refine .inl ⟨fun other => ?_, limits.holds_congr hslots⟩
    rw [ConnectionLimiter.count, hrow]
    split
    · rename_i h
      rw [ConnectionLimiter.count, h.1, h.2.2]
      rfl
    · rfl

/-- A step moves the counts by what its connection took or gave back, as long as less is held than a
total can say. -/
theorem balanced_access (hunmetered : Unmetered limits limiter) {rest : ConnectionSlot → ℕ}
    (hexact : ∀ slot, limiter.count slot = limits.holds phase slot + rest slot)
    (hfew : ∀ slot, limits.holds phase' slot + rest slot < 2 ^ 32) (slot : ConnectionSlot) :
  limiter'.count slot = limits.holds phase' slot + rest slot
  := by
  have hslot := hexact slot
  obtain ⟨hcount, hholds⟩ | ⟨taken, hcounts, -, hcount, hholds⟩ | ⟨given, hcount, hholds⟩ :=
    hstep.count_cases
  · rw [hcount, hholds]
    exact hslot
  · have hlt := hfew slot
    rw [hholds] at hlt
    rw [hcount, hholds]
    split
    · rename_i heq
      subst heq
      rw [if_pos rfl] at hlt
      rw [countTaken]
      split <;> omega
    · omega
  · rw [hholds] at hslot
    rw [hcount]
    split
    · rename_i heq
      subst heq
      by_cases hcounts : limits.counts slot = true
      · rw [if_pos ⟨hcounts, rfl⟩] at hslot
        omega
      -- what is not counted has no row to decrement
      have hnone := hunmetered slot (by simpa using hcounts)
      have hzero : limiter.count slot = 0 := by
        rw [ConnectionLimiter.count, hnone]
        rfl
      omega
    · rename_i hne
      rw [if_neg (fun h => hne h.2)] at hslot
      exact hslot

theorem count_le_access {rest : ℕ} (hle : limiter.count slot ≤ limits.holds phase slot + rest) :
  limiter'.count slot ≤ limits.holds phase' slot + rest
  := by
  obtain ⟨hcount, hholds⟩ | ⟨taken, hcounts, -, hcount, hholds⟩ | ⟨given, hcount, hholds⟩ :=
    hstep.count_cases
  · rw [hcount, hholds]
    exact hle
  · rw [hcount, hholds]
    split
    · rename_i heq
      subst heq
      rw [countTaken]
      split <;> omega
    · omega
  · rw [hholds] at hle
    rw [hcount]
    split
    · rename_i heq
      subst heq
      split at hle <;> omega
    · rename_i hne
      rw [if_neg (fun h => hne h.2)] at hle
      exact hle

def Within (limits : ConnectionLimits) (limiter : ConnectionLimiter) : Prop :=
  ∀ slot, limits.limit slot ≠ 0 → limiter.count slot ≤ limits.limit slot

/-- No access goes over a ceiling. -/
theorem within_access (h : Within limits limiter) :
  Within limits limiter'
  := by
  intro slot hne
  have hle := h slot hne
  obtain ⟨hcount, -⟩ | ⟨taken, -, hlimit, hcount, -⟩ | ⟨given, hcount, -⟩ := hstep.count_cases
  · rw [hcount]
    exact hle
  · rw [hcount]
    split
    · rename_i heq
      subst heq
      rw [countTaken, if_neg hne]
      omega
    · exact hle
  · rw [hcount]
    split
    · rename_i heq
      subst heq
      omega
    · exact hle

/-- A row of a source that counts nothing is about to be removed. -/
def Tidy (limiter : ConnectionLimiter) (threads : List AcceptPhase) : Prop :=
  ∀ slot, slot.ofSource = true → limiter.row slot = some 0 →
    ∃ phase ∈ threads, phase.reaps = some slot

theorem tidy_access {before after : List AcceptPhase}
    (h : Tidy limiter (before ++ phase :: after)) :
  Tidy limiter' (before ++ phase' :: after)
  := by
  intro slot hsource hzero
  -- a connection that is not the one of the step still has the row to remove
  have hothers : limiter.row slot = some 0 → phase.reaps ≠ some slot →
      ∃ other ∈ before ++ phase' :: after, other.reaps = some slot := by
    intro hrow hne
    obtain ⟨other, hother, hreaps⟩ := h slot hsource hrow
    refine ⟨other, ?_, hreaps⟩
    have hother' : other ≠ phase := by
      rintro rfl
      exact hne hreaps
    simp only [mem_append, mem_cons] at hother ⊢
    tauto
  cases hstep with
  | same hrow _ hreaps =>
    rw [hrow] at hzero
    exact hothers hzero (by simp [hreaps])
  | taken taken hcounts hlimit hrow _ hreaps =>
    rw [hrow] at hzero
    split at hzero
    · rename_i heq
      subst heq
      rw [countTaken, if_neg (limits.limit_ne_zero hcounts hsource)] at hzero
      cases hzero
    · exact hothers hzero (by simp [hreaps])
  | given given hrow _ hreaps hleft =>
    by_cases heq : slot = given
    · subst heq
      exact ⟨phase', by simp, hleft hsource hzero⟩
    · rw [hrow, if_neg heq] at hzero
      exact hothers hzero (by simp [hreaps])
  | reaped reaped hrow _ hreaps =>
    rw [hrow] at hzero
    split at hzero
    · cases hzero
    rename_i hnot
    by_cases heq : slot = reaped
    · subst heq
      exact absurd ⟨rfl, hsource, hzero⟩ hnot
    · refine hothers hzero ?_
      rw [hreaps, ne_eq, Option.some.injEq]
      exact Ne.symm heq

end

section

variable (limits : ConnectionLimits) (inputs : List (Threads.Input IpAddr AcceptMove))

theorem within_run :
  Within limits ((acceptThreads limits).machine.run (.new, []) inputs).1
  := by
  have hkeep : ∀ limiter move phase, Within limits limiter →
      Within limits ((acceptThreads limits).access limiter move phase).1 :=
    fun limiter move phase h => within_access (acceptStep limits limiter move phase) h
  refine (shared_invariant hkeep).run ?_ inputs
  intro slot _
  cases slot <;> exact Nat.zero_le _

theorem tidy_run :
  Tidy ((acceptThreads limits).machine.run (.new, []) inputs).1
    ((acceptThreads limits).machine.run (.new, []) inputs).2
  := by
  refine @logged _ _ _ _ _ (acceptThreads limits)
    (fun _ limiter threads => Tidy limiter threads) (fun _ _ => True) ?_ ?_ _ ?_ inputs
    (fun _ _ _ => trivial)
  · intro _ limiter threads source h slot hsource hzero
    obtain ⟨phase, hphase, hreaps⟩ := h slot hsource hzero
    exact ⟨phase, mem_append_left _ hphase, hreaps⟩
  · intro _ limiter before phase after move _ h
    exact tidy_access (acceptStep limits limiter move phase) h
  · intro slot hsource hzero
    cases slot <;> cases hsource <;> cases hzero

end

theorem AcceptPhase.of_done (h : phase.done = true) :
  phase.slots = [] ∧ phase.reaps = none
  := by
  fun_cases done phase <;> simp_all [done, slots,
    AcceptOutcome.slots, reaps]

variable (limits : ConnectionLimits) (inputs : List (Threads.Input IpAddr AcceptMove))

/-- When all are done, the limiter is as new. -/
theorem drained_run (hdone : ∀ phase ∈ ((acceptThreads limits).machine.run (.new, []) inputs).2,
      phase.done = true) :
  ((acceptThreads limits).machine.run (.new, []) inputs).1 = .new
  := by
  have hle := @count_le_held_run _ _ _ _ _ _ (acceptThreads limits)
    ConnectionLimiter.count limits.holds
    (fun limiter move phase slot rest => count_le_access (acceptStep limits limiter move phase))
    .new (fun slot => by cases slot <;> rfl) inputs
  have htidy := tidy_run limits inputs
  generalize (acceptThreads limits).machine.run (.new, []) inputs = state at hdone hle htidy ⊢
  obtain ⟨limiter, threads⟩ := state
  have hcount : ∀ slot, limiter.count slot = 0 := by
    intro slot
    have hheld : held (limits.holds · slot) threads = 0 := by
      refine held_eq_zero fun phase hphase => ?_
      rw [holds, (of_done (hdone phase hphase)).1]
      exact ite_self 0
    exact Nat.le_zero.mp (hheld ▸ hle slot)
  have hrow : ∀ slot, slot.ofSource = true → limiter.row slot = none := by
    intro slot hsource
    cases hget : limiter.row slot with
    | none => rfl
    | some entry =>
    have hzero := hcount slot
    rw [ConnectionLimiter.count, hget, Option.getD_some] at hzero
    subst hzero
    obtain ⟨phase, hphase, hreaps⟩ := htidy slot hsource hget
    rw [(of_done (hdone phase hphase)).2] at hreaps
    cases hreaps
  obtain ⟨handshakes, connections, handshakesTotal, connectionsTotal⟩ := limiter
  have hhandshakes : handshakes = .empty :=
    eq_empty_of_get? fun source => hrow (.handshakesOf source) rfl
  have hconnections : connections = .empty :=
    eq_empty_of_get? fun source => hrow (.connectionsOf source) rfl
  have hhandshakesTotal : handshakesTotal = 0 := hcount .handshakes
  have hconnectionsTotal : connectionsTotal = 0 := hcount .connections
  rw [hhandshakes, hconnections, hhandshakesTotal, hconnectionsTotal]
  rfl

/-- For every interleaving of any number of connections that hold fewer than 2^32 of a slot: no
count is above its ceiling, the counts are what the connections hold, an accept that was refused
leaves every count as it found it but for what the others took and gave back meanwhile, and once all
are done the limiter is as it was at startup. -/
theorem connection_ceilings_exact (limits : ConnectionLimits)
    (inputs : List (Threads.Input IpAddr AcceptMove))
    (hfew : ∀ before, before <+: inputs → ∀ slot,
      held (limits.holds · slot) ((acceptThreads limits).machine.run (.new, []) before).2
        < 2 ^ 32) :
  let state := (acceptThreads limits).machine.run (.new, [])
  let others := fun before index slot =>
    held (limits.holds · slot) ((state before).2.eraseIdx index)
  (∀ before, before <+: inputs → Within limits (state before).1) ∧
  (∀ before, before <+: inputs → limits.Exact (state before)) ∧
  (∀ earlier later, earlier <+: later → later <+: inputs →
    ∀ index source reason, (state earlier).2[index]? = some (.checking source) →
    (state later).2[index]? = some (.giving [] (.refused reason)) →
    ∀ slot, (state later).1.count slot + others earlier index slot
      = (state earlier).1.count slot + others later index slot) ∧
  ((∀ phase ∈ (state inputs).2, phase.done = true) → (state inputs).1 = .new)
  := by
  intro state others
  have hexact : ∀ before, before <+: inputs → limits.Exact (state before) := by
    intro before hpre
    refine @exact_of_few _ _ _ _ _ _ (acceptThreads limits) _ _ (Unmetered limits) _
      (fun _ _ => ite_self 0) ?_ ?_ _ ?_ (fun slot => by cases slot <;> rfl) before
      fun first h => hfew first (h.trans hpre)
    · intro limiter move phase h
      exact unmetered_access (acceptStep limits limiter move phase) h
    · intro limiter move phase rest hunmetered h
      exact balanced_access (acceptStep limits limiter move phase) hunmetered h
    · intro slot hcounts
      cases slot with
      | connections | handshakes => cases hcounts
      | connectionsOf source | handshakesOf source => rfl
  refine ⟨fun before _ => within_run limits before, hexact, ?_, drained_run limits inputs⟩
  intro earlier later hearlier hlater index source reason hchecking hrefused slot
  have hbefore := (hexact earlier (hearlier.trans hlater)).count_eq hchecking slot
  have hafter := (hexact later hlater).count_eq hrefused slot
  have hnone : limits.holds (.checking source) slot = 0 ∧
      limits.holds (.giving [] (.refused reason)) slot = 0 :=
    ⟨ite_self 0, ite_self 0⟩
  simp only [state, others] at hbefore hafter ⊢
  omega

/-- Two connections for one place: the first takes it, the second is refused, and the first goes. -/
def twoConnections : List (Threads.Input IpAddr AcceptMove) :=
  .begin (.v4 1) :: replicate 5 (.run 0 (.next false))
    ++ [.begin (.v4 2), .run 1 (.next false), .run 1 (.next false), .run 0 .drop]
    ++ replicate 4 (.run 0 (.next false))

theorem twoConnections_exact :
  let limits : ConnectionLimits := ⟨0, 0, 1, 0⟩
  let state := (acceptThreads limits).machine.run (.new, [])
  limits.Exact (state (twoConnections.take 9))
    ∧ (state (twoConnections.take 9)).1.connectionsTotal = 1
    ∧ (state (twoConnections.take 9)).2.map AcceptPhase.done = [false, true]
    ∧ (state twoConnections).1 = .new
  := by
  intro limits state
  have hmost : ∀ phase slot, limits.holds phase slot ≤ phase.slots.length := by
    intro phase slot
    rw [holds]
    split
    · exact count_le_length
    · exact Nat.zero_le _
  obtain ⟨-, hexact, -, hdrained⟩ := connection_ceilings_exact limits twoConnections
    (held_lt_of_inits (·.slots.length) hmost (by decide +kernel))
  exact ⟨hexact _ (List.take_prefix 9 twoConnections), by decide +kernel, by decide +kernel,
    hdrained (by decide +kernel)⟩

end Siphon.Security
