import Siphon.Transaction.TimerSafety

/-!
# The timers of an INVITE client transaction

Timer B bounds the wait for a provisional response and hands over to Timer C, which is started again
for as long as there is progress and then gives the final response another Timer B.
-/

namespace Siphon.Transaction

open TimedMachine

/-! ### The control and its timers -/

/-- Whether a timer runs after what actions are about, if it is known whether it ran before. -/
def labelsRun (name : TimerName) (before : Bool) (ls : List Label) : Bool :=
  ls.foldl (fun b l =>
    match l with
    | .start n => if n = name then true else b
    | .stop n => if n = name then false else b
    | _ => b) before

theorem labelsRun_mono {name : TimerName} {b b' : Bool} {ls : List Label}
    (hb : b = true → b' = true) (h : labelsRun name b ls = true) :
  labelsRun name b' ls = true
  := by
  induction ls generalizing b b' with
  | nil => exact hb h
  | cons l ls ih =>
  refine ih ?_ h
  cases l <;> dsimp only <;> first | exact hb | (split <;> first | exact id | exact hb)

def InputKind.timer : InputKind → Option TimerName
  | .event .timerA => some .a
  | .event .timerB => some .b
  | .event .timerC => some .c
  | .event .timerD => some .d
  | .event .noResponse => some .noResponse
  | _ => none

namespace IctControl

def guard (c : IctControl) : Option TimerName :=
  match c.state with
  | .calling => some .b
  | .proceeding => if c.timerC = .idle then some .b else some .c
  | .completed => some .d
  | .terminated => none

/-- Timer C runs only once there is a provisional response and not after the INVITE was given up
on, and the no-response timer only before any response. -/
def Ok (c : IctControl) : Prop :=
  (c.state = .calling → c.timerC = .idle) ∧ (c.noResponse = .armed → c.state = .calling)
    ∧ (c.noResponse = .gaveUp → c.timerC = .idle)

instance (c : IctControl) : Decidable c.Ok :=
  inferInstanceAs (Decidable (_ ∧ _ ∧ _))

theorem ok_step :
  ∀ (c : IctControl) (k : InputKind), c.Ok → ∀ o ∈ c.step k, o.1.Ok
  := by
  decide +kernel

theorem guard_step :
  ∀ (c : IctControl) (k : InputKind), c.Ok → ∀ o ∈ c.step k, ∀ name ∈ o.1.guard,
    labelsRun name (c.guard == some name && k.timer != some name) o.2 = true
  := by
  decide +kernel

theorem state_of_timerB :
  ∀ c : IctControl, c.state = .calling ∨ (c.state = .proceeding ∧ c.noResponse = .gaveUp) →
    ∀ o ∈ c.step (.event .timerB), o.1.state = .terminated
  := by
  decide +kernel

theorem timerC_of_timerB :
  ∀ c : IctControl, c.Ok → c.state = .proceeding → c.noResponse ≠ .gaveUp →
    ∀ o ∈ c.step (.event .timerB),
      o.1.state = .proceeding ∧ o.1.timerC ≠ .idle ∧ o.1.noResponse ≠ .gaveUp
  := by
  decide +kernel

theorem state_of_timerC :
  ∀ c : IctControl, c.Ok → c.state = .proceeding → c.timerC = .expired →
    ∀ o ∈ c.step (.event .timerC), o.1.state = .terminated
  := by
  decide +kernel

theorem state_of_timerD :
  ∀ c : IctControl, c.state = .completed → ∀ o ∈ c.step (.event .timerD), o.1.state = .terminated
  := by
  decide +kernel

end IctControl

namespace Ict

/-- The event a timer of an INVITE client transaction brings. -/
def ofTimer : TimerName → Option IctEvent
  | .a => some .timerA
  | .b => some .timerB
  | .c => some .timerC
  | .d => some .timerD
  | .noResponse => some .noResponse
  | _ => none

def outputEffect : Output → Option (TimerName × Option Duration)
  | .action a => a.effect
  | .sendNow _ => none

/-- Timer C has a time to count from while it is armed. -/
def Progress (t : Ict) : Prop :=
  t.timerC = .armed → t.lastProgress.isSome = true

def Inv (t : Ict) : Prop :=
  t.control.Ok ∧ t.Progress

variable {t : Ict}

theorem noResponse_off (h : t.Inv) (hs : t.state = .proceeding) (hgaveUp : t.noResponse ≠ .gaveUp) :
  t.noResponse = .off
  := by
  cases hno : t.noResponse with
  | off => rfl
  | armed =>
    have hcalling : t.state = .calling := h.1.2.1 hno
    rw [hcalling] at hs
    cases hs
  | gaveUp => exact absurd hno hgaveUp

section

variable (h : t.Progress)
include h

theorem Progress.noteProgress (now : Instant) (response : SipMessage) :
  (noteProgress now t response).Progress
  := by
  unfold Ict.noteProgress
  split
  · exact fun _ => rfl
  · exact h

theorem Progress.releaseWaitingCancel :
  t.releaseWaitingCancel.1.Progress
  := by
  unfold Ict.releaseWaitingCancel
  split <;> exact h

theorem Progress.dropWaitingCancel :
  t.dropWaitingCancel.Progress
  := by
  unfold Ict.dropWaitingCancel
  split <;> exact h

theorem Progress.stopTimerC :
  t.stopTimerC.1.Progress
  := by
  unfold Ict.stopTimerC
  split
  · exact fun hidle => by cases hidle
  · exact h

theorem Progress.startTimerD :
  t.startTimerD.1.Progress
  := by
  unfold Ict.startTimerD
  split <;> exact h

end

variable [StdText]

theorem progress_expireTimerC (t : Ict) :
  t.expireTimerC.1.Progress
  := by
  have hexpired : t.expireTimerC.1.timerC = .expired := by
    unfold expireTimerC
    dsimp only
    split
    · split <;> rfl
    · rfl
  intro harmed
  rw [hexpired] at harmed
  cases harmed

section

variable (h : t.Progress)

include h

theorem Progress.timerCDue (now : Instant) :
  (timerCDue now t).1.Progress
  := by
  unfold Ict.timerCDue
  cases t.timerC with
  | idle => exact h
  | armed =>
    dsimp only
    split
    · exact h
    · exact progress_expireTimerC t
  | expired => exact fun harmed => by cases harmed

theorem Progress.completeNon2xx (response : SipMessage) :
  (t.completeNon2xx response).1.Progress
  := by
  have hack : (t.ackNon2xx response).1.Progress := by
    unfold Ict.ackNon2xx
    split <;> exact h
  apply Progress.startTimerD
  split
  · exact hack.stopTimerC
  · exact hack.dropWaitingCancel

theorem Progress.giveUpUnanswered :
  t.giveUpUnanswered.1.Progress
  := by
  unfold Ict.giveUpUnanswered
  split
  · exact h
  dsimp only
  split
  · split <;> exact h
  · exact h

section

variable (now : Instant) (e : IctEvent)

theorem Progress.advance :
  (advance now t e).1.Progress
  := by
  unfold Ict.advance
  cases t.state <;> cases e <;> dsimp only
  case calling.provisional response =>
    have hproceeding : { t with state := .proceeding }.Progress := h
    exact (hproceeding.noteProgress now response).releaseWaitingCancel
  case calling.timerB | calling.response2xx => exact Progress.dropWaitingCancel h
  case calling.responseNon2xx response | proceeding.responseNon2xx response =>
    exact h.completeNon2xx response
  case calling.noResponse => exact h.giveUpUnanswered
  case proceeding.timerB => exact Progress.timerCDue (fun _ => rfl) now
  case proceeding.timerC => exact h.timerCDue now
  case proceeding.provisional response => exact h.noteProgress now response
  case proceeding.response2xx => exact Progress.stopTimerC h
  all_goals exact h

theorem Progress.processGivenUp :
  (processGivenUp now t e).1.Progress
  := by
  have hadvance := h.advance now e
  unfold Ict.processGivenUp
  cases t.state <;> cases e <;> dsimp only
  case calling.timerB | proceeding.timerB => exact Progress.dropWaitingCancel h
  case calling.provisional response =>
    split <;> exact Progress.releaseWaitingCancel h
  all_goals first | exact h | exact hadvance

theorem Progress.process :
  (process now t e).1.Progress
  := by
  unfold Ict.process
  split
  · exact h.advance now e
  · exact h.processGivenUp now e
  · dsimp only
    split <;> exact h.advance now e

end

theorem Progress.step (i : IctInput) :
  (t.step i).1.Progress
  := by
  cases i with
  | event now e => exact h.process now e
  | requestCancel reasons =>
    simp only [Ict.step, requestCancel]
    split
    · split <;> exact h
    · exact h
    · split <;> exact h
    · exact h
  | setHop | setConnection => exact h
  | armNoResponse after =>
    simp only [Ict.step, Ict.armNoResponse]
    split <;> exact h
  | disarmNoResponse =>
    simp only [Ict.step, Ict.disarmNoResponse]
    split <;> exact h

end

/-- An INVITE client transaction and its timers; an event comes at the time it is taken. -/
def timedMachine : TimedMachine Ict IctInput Output TimerName where
  step now t i :=
    match i with
    | .event _ e => t.step (.event now e)
    | i => t.step i
  expiry now name := (ofTimer name).map (IctInput.event now)
  effect := outputEffect

theorem exists_step (now : Instant) (t : Ict) (i : IctInput) :
  ∃ j, j.kind = i.kind ∧ timedMachine.step now t i = t.step j
  := by
  cases i with
  | event _ e => exact ⟨.event now e, rfl, rfl⟩
  | _ => exact ⟨_, rfl, rfl⟩

theorem inv_step (now : Instant) (t : Ict) (i : IctInput) (h : t.Inv) :
  (timedMachine.step now t i).1.Inv
  := by
  obtain ⟨j, -, heq⟩ := exists_step now t i
  rw [heq]
  exact ⟨IctControl.ok_step t.control j.kind h.1 _ (t.outcome_step j), h.2.step j⟩

theorem runs_eq_labelsRun (name : TimerName) (before : Bool) (outputs : List Output) :
  timedMachine.runs name before outputs = labelsRun name before (outputLabels outputs)
  := by
  induction outputs generalizing before with
  | nil => rfl
  | cons output outputs ih =>
  rw [runs_cons, ih]
  cases output with
  | sendNow cancel => rfl
  | action a => cases a <;> rfl

theorem timer_of_expiry {now : Instant} {name : TimerName} {i : IctInput}
    (h : timedMachine.expiry now name = some i) :
  i.kind.timer = some name
  := by
  cases name <;> cases h <;> rfl

theorem keepsGuard :
  TimedMachine.KeepsGuard timedMachine Inv fun t => t.control.guard
  := by
  intro now t i hinv name hname before hbefore
  obtain ⟨j, hkind, heq⟩ := exists_step now t i
  rw [heq] at hname ⊢
  have hguard := IctControl.guard_step t.control j.kind hinv.1 _ (t.outcome_step j) name hname
  rw [runs_eq_labelsRun]
  refine labelsRun_mono ?_ hguard
  intro hb
  obtain ⟨hbefore', htimer⟩ := Bool.and_eq_true_iff.mp hb
  refine (hbefore (beq_iff_eq.mp hbefore')).resolve_right fun hexpiry => ?_
  rw [hkind, timer_of_expiry hexpiry] at htimer
  simp at htimer

theorem step_terminated (h : t.state = .terminated) (hinv : t.Inv) (now : Instant) (i : IctInput) :
  (timedMachine.step now t i).2 = []
  := by
  have hoff : t.noResponse ≠ .armed := by
    intro ha
    have hcalling : t.state = .calling := hinv.1.2.1 ha
    rw [hcalling] at h
    cases h
  cases i with
  | event _ e =>
    have hadvance : (advance now t e).2 = [] := by
      unfold advance
      cases e <;> simp only [h]
    have hgivenUp : (processGivenUp now t e).2 = [] := by
      unfold processGivenUp
      cases e <;> simp only [h, hadvance, List.filter_nil]
    have hprocess : (process now t e).2 = [] := by
      unfold process
      cases hno : t.noResponse with
      | off => exact hadvance
      | gaveUp => exact hgivenUp
      | armed => exact absurd hno hoff
    simp [timedMachine, step, hprocess]
  | requestCancel reasons => simp [timedMachine, step, requestCancel, h, CancelOutcome.outputs]
  | setHop | setConnection => rfl
  | armNoResponse after => simp [timedMachine, step, armNoResponse, h]
  | disarmNoResponse => simp [timedMachine, step, disarmNoResponse, hoff]

def TimedInv (s : Ict × Running TimerName) : Prop :=
  s.1.Inv ∧ TimedMachine.Guarded (fun t => t.control.guard) s

/-- The guarding timer runs after every input. -/
theorem timedInv_invariant :
  timedMachine.timed.Invariant TimedInv
  := by
  apply invariant_guarded inv_step keepsGuard
  intro now t name hname
  dsimp only [IctControl.guard] at hname
  split at hname
  · cases hname
    rfl
  · split at hname <;> cases hname <;> rfl
  · cases hname
    rfl
  · cases hname

theorem timedInv_start (requestBytes : Bytes) (transport : Transport) (timers : TimerConfig)
    (now : Instant) :
  TimedInv (timedMachine.start now ((new requestBytes transport timers).1,
    (new requestBytes transport timers).2.map .action))
  := by
  refine ⟨⟨⟨fun _ => rfl, fun _ => rfl, fun _ => rfl⟩, fun h => by cases h⟩, ?_⟩
  intro name hname
  cases hname
  cases transport <;> rfl

/-! #### Timer C -/

theorem timerC_expireTimerC (t : Ict) :
  t.expireTimerC.1.timerC = .expired ∧ t.expireTimerC.1.state = t.state
  := by
  unfold expireTimerC
  dsimp only
  split
  · split <;> exact ⟨rfl, rfl⟩
  · exact ⟨rfl, rfl⟩

variable {s : Ict × Running TimerName}

theorem endsByTimer_expired (h : TimedInv s) (hs : s.1.state = .proceeding)
    (hc : s.1.timerC = .expired) :
  timedMachine.EndsByTimer (fun t => t.state = .terminated) s
  := by
  have hguard : s.1.control.guard = some .c := by
    simp [IctControl.guard, control, hs, hc]
  apply endsByTimer_of_final (h.2 .c hguard)
  intro now
  exact ⟨_, rfl,
    IctControl.state_of_timerC s.1.control h.1.1 hs hc _ (s.1.outcome_step (.event now .timerC))⟩

theorem step_timerC {now : Instant} {progress : Instant} (hs : t.state = .proceeding)
    (hno : t.noResponse = .off) (hc : t.timerC = .armed) (hp : t.lastProgress = some progress) :
  timedMachine.step now t (.event now .timerC)
    = if progress + t.timers.timerC - now ≠ 0 then
        (t, [.action (.startTimer .c (progress + t.timers.timerC - now))])
      else (t.expireTimerC.1, t.expireTimerC.2.map .action)
  := by
  simp only [timedMachine, step, process, hno, advance, hs, timerCDue, hc, hp, Option.getD_some]
  split <;> rfl

section

variable (h : TimedInv s) (hs : s.1.state = .proceeding)
include h hs

theorem ends_of_deadline {now due : Instant} (hno : s.1.noResponse = .off)
    (hc : s.1.timerC = .armed) {progress : Instant} (hp : s.1.lastProgress = some progress)
    (hdue : s.2 .c = some due) (hnow : due ≤ now) (hdeadline : progress + s.1.timers.timerC ≤ now) :
  timedMachine.Ends (fun t => t.state = .terminated)
    (timedMachine.timed.step s (.expire now .c)).1
  := by
  have hinv := timedInv_invariant s (.expire now .c) h
  have hstep : (timedMachine.timed.step s (.expire now .c)).1.1 = s.1.expireTimerC.1 := by
    rw [step_expire hdue hnow rfl, TimedMachine.take, step_timerC hs hno hc hp,
      if_neg (not_not.mpr (Nat.sub_eq_zero_of_le hdeadline))]
  obtain ⟨hexpired, hstate⟩ := timerC_expireTimerC s.1
  apply TimedMachine.EndsByTimer.ends
  apply endsByTimer_expired hinv
  · rw [hstep, hstate, hs]
  · rw [hstep, hexpired]

theorem endsByTimer_armed (hno : s.1.noResponse = .off) (hc : s.1.timerC = .armed) :
  timedMachine.EndsByTimer (fun t => t.state = .terminated) s
  := by
  obtain ⟨progress, hp⟩ := Option.isSome_iff_exists.mp (h.1.2 hc)
  have hguard : s.1.control.guard = some .c := by
    simp [IctControl.guard, control, hs, hc]
  obtain ⟨due, hdue⟩ := Option.isSome_iff_exists.mp (h.2 .c hguard)
  refine ⟨.c, due, hdue, fun now hnow => ?_⟩
  by_cases hdeadline : progress + s.1.timers.timerC ≤ now
  · exact ends_of_deadline h hs hno hc hp hdue hnow hdeadline
  -- before the deadline Timer C is started again, to expire at the deadline
  have hinv := timedInv_invariant s (.expire now .c) h
  have hbefore : now < progress + s.1.timers.timerC := not_le.mp hdeadline
  have hrestart : now + (progress + s.1.timers.timerC - now) = progress + s.1.timers.timerC :=
    Nat.add_sub_cancel' hbefore.le
  have hstep := step_expire (m := timedMachine) hdue hnow rfl
  rw [TimedMachine.take, step_timerC hs hno hc hp, if_pos (Nat.sub_ne_zero_of_lt hbefore)]
    at hstep
  rw [hstep] at hinv ⊢
  have hagain : timedMachine.applyAll now (Function.update s.2 .c none)
      [.action (.startTimer .c (progress + s.1.timers.timerC - now))] .c
        = some (progress + s.1.timers.timerC) := by
    simp [TimedMachine.applyAll, TimedMachine.apply, timedMachine, outputEffect, Action.effect,
      hrestart]
  apply TimedMachine.EndsByTimer.ends
  refine ⟨.c, progress + s.1.timers.timerC, hagain, fun now' hnow' => ?_⟩
  exact ends_of_deadline hinv hs hno hc hp hagain hnow' hnow'

theorem endsByTimer_timerC (hno : s.1.noResponse ≠ .gaveUp) (hc : s.1.timerC ≠ .idle) :
  timedMachine.EndsByTimer (fun t => t.state = .terminated) s
  := by
  cases htimer : s.1.timerC with
  | idle => exact absurd htimer hc
  | armed => exact endsByTimer_armed h hs (noResponse_off h.1 hs hno) htimer
  | expired => exact endsByTimer_expired h hs htimer

theorem endsByTimer_proceeding (hno : s.1.noResponse ≠ .gaveUp) :
  timedMachine.EndsByTimer (fun t => t.state = .terminated) s
  := by
  by_cases hidle : s.1.timerC = .idle
  · have hguard : s.1.control.guard = some .b := by
      simp [IctControl.guard, control, hs, hidle]
    obtain ⟨due, hdue⟩ := Option.isSome_iff_exists.mp (h.2 .b hguard)
    refine ⟨.b, due, hdue, fun now hnow => ?_⟩
    have hinv := timedInv_invariant s (.expire now .b) h
    rw [step_expire hdue hnow rfl] at hinv ⊢
    obtain ⟨hstate, htimer, hgaveUp⟩ := IctControl.timerC_of_timerB s.1.control h.1.1 hs hno _
      (s.1.outcome_step (.event now .timerB))
    exact (endsByTimer_timerC hinv hstate hgaveUp htimer).ends
  · exact endsByTimer_timerC h hs hno hidle

end

theorem endsByTimer (h : TimedInv s) (hs : s.1.state ≠ .terminated) :
  timedMachine.EndsByTimer (fun t => t.state = .terminated) s
  := by
  cases hstate : s.1.state with
  | calling =>
    apply endsByTimer_of_final (h.2 .b (by simp [IctControl.guard, control, hstate]))
    intro now
    exact ⟨_, rfl, IctControl.state_of_timerB s.1.control (.inl hstate) _
      (s.1.outcome_step (.event now .timerB))⟩
  | proceeding =>
    by_cases hgaveUp : s.1.noResponse = .gaveUp
    · have hidle : s.1.timerC = .idle := h.1.1.2.2 hgaveUp
      apply endsByTimer_of_final
        (h.2 .b (by simp [IctControl.guard, control, hstate, hidle]))
      intro now
      exact ⟨_, rfl, IctControl.state_of_timerB s.1.control (.inr ⟨hstate, hgaveUp⟩) _
        (s.1.outcome_step (.event now .timerB))⟩
    · exact endsByTimer_proceeding h hstate hgaveUp
  | completed =>
    apply endsByTimer_of_final (h.2 .d (by simp [IctControl.guard, control, hstate]))
    intro now
    exact ⟨_, rfl, IctControl.state_of_timerD s.1.control hstate _
      (s.1.outcome_step (.event now .timerD))⟩
  | terminated => exact absurd hstate hs

end Ict

/-! ### No timer leaks and no transaction is stuck -/

variable [StdText]

/-- In every state of every run of the four machines with their timers: once the transaction has
ended no timer is left that would do anything; and a client transaction that has not ended, or a
server transaction in `Completed` or `Confirmed`, has a timer running that leads to its end. -/
theorem timers_end_transactions (timers : TimerConfig) (transport : Transport) (now : Instant) :
  (∀ requestBytes inputs,
    let s := Ict.timedMachine.timed.run
      (Ict.timedMachine.start now ((Ict.new requestBytes transport timers).1,
        (Ict.new requestBytes transport timers).2.map .action)) inputs
    (s.1.state = .terminated → Ict.timedMachine.Quiet s)
      ∧ (s.1.state ≠ .terminated →
        Ict.timedMachine.EndsByTimer (fun t => t.state = .terminated) s))
    ∧ (∀ requestBytes inputs,
      let s := Nict.timedMachine.timed.run
        (Nict.timedMachine.start now (Nict.new requestBytes transport timers)) inputs
      (s.1.state = .terminated → Nict.timedMachine.Quiet s)
        ∧ (s.1.state ≠ .terminated →
          Nict.timedMachine.EndsByTimer (fun t => t.state = .terminated) s))
    ∧ (∀ inputs,
      let s := Ist.timedMachine.timed.run
        (Ist.timedMachine.start now (Ist.new transport timers, [])) inputs
      (s.1.state = .terminated ∨ s.1.state = .accepted → Ist.timedMachine.Quiet s)
        ∧ (s.1.state = .completed ∨ s.1.state = .confirmed →
          Ist.timedMachine.EndsByTimer (fun t => t.state = .terminated) s))
    ∧ ∀ request inputs,
      let s := Nist.timedMachine.timed.run
        (Nist.timedMachine.start now (Nist.new request transport timers)) inputs
      (s.1.state = .terminated → Nist.timedMachine.Quiet s)
        ∧ (s.1.state = .completed →
          Nist.timedMachine.EndsByTimer (fun n => n.state = .terminated) s)
  := by
  refine ⟨fun requestBytes inputs => ?_, fun requestBytes inputs => ?_, fun inputs => ?_,
    fun request inputs => ?_⟩
  · have hinv := Ict.timedInv_invariant.run
      (Ict.timedInv_start requestBytes transport timers now) inputs
    exact ⟨fun h => quiet_of_step (Ict.step_terminated h hinv.1),
      Ict.endsByTimer hinv⟩
  · have hinv := Nict.guarded_run requestBytes transport timers now inputs
    exact ⟨fun h => quiet_of_step (Nict.step_terminated h hinv.1),
      Nict.endsByTimer hinv⟩
  · exact ⟨fun h => quiet_of_step (Ist.step_ended h),
      Ist.endsByTimer (Ist.guarded_run transport timers now inputs)⟩
  · exact ⟨fun h => quiet_of_step (Nist.step_terminated h),
      Nist.endsByTimer (Nist.guarded_run request transport timers now inputs)⟩

end Siphon.Transaction
