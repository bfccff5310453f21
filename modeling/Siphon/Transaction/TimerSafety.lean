import Siphon.Library.Timed
import Siphon.Transaction.Outcome

/-!
# The timers of transactions

The two server machines and the non-INVITE client machine with the timers they run.
-/

namespace Siphon.Transaction

open TimedMachine

def Action.effect : Action → Option (TimerName × Option Duration)
  | .startTimer name duration => some (name, some duration)
  | .cancelTimer name => some (name, none)
  | _ => none

/-! ### Server transactions -/

variable {name : TimerName}

namespace Nist

def guard (n : Nist) : Option TimerName :=
  match n.state with
  | .completed => some .j
  | _ => none

variable {n : Nist}

theorem guard_completed (h : n.state = .completed) :
  n.guard = some .j
  := by
  rw [guard, h]

theorem eq_of_guard (h : n.guard = some name) :
  n.state = .completed ∧ name = .j
  := by
  rw [guard] at h
  split at h
  · exact ⟨‹_›, (Option.some.inj h).symm⟩
  · cases h

variable [StdText]

/-- The input a timer of a non-INVITE server transaction brings. -/
def ofTimer : TimerName → Option (Text × NistEvent)
  | .j => some ([], .timerJ)
  | .trying100 => some ([], .trying100Fired)
  | _ => none

/-- A non-INVITE server transaction and its timers; each event comes with a tag to take if one is
needed. -/
def timedMachine : TimedMachine Nist (Text × NistEvent) Action TimerName where
  step _ n e := n.process e.1 e.2
  expiry _ := ofTimer
  effect := Action.effect

theorem complete_cases (fresh : Text) (n : Nist) (response : SipMessage) :
  ((n.complete fresh response).1.state = .terminated
      ∧ ∃ sent, (n.complete fresh response).2 = [.sendMessage sent, .terminated])
    ∨ ((n.complete fresh response).1.state = .completed
      ∧ ∃ sent timerJ, (n.complete fresh response).2 = [.sendMessage sent, .startTimer .j timerJ])
  := by
  unfold complete
  cases n.transport
  all_goals
    dsimp only
    split
    · exact .inl ⟨rfl, _, rfl⟩
    · exact .inr ⟨rfl, _, _, rfl⟩

theorem keepsGuard :
  TimedMachine.KeepsGuard timedMachine (fun _ => True) guard
  := by
  rintro now n ⟨fresh, e⟩ _ name hname before hbefore
  obtain ⟨hstate, rfl⟩ := eq_of_guard hname
  have hfinal (response : SipMessage) (b : Bool)
      (h : (n.complete fresh response).1.state = .completed) :
      timedMachine.runs .j b (n.complete fresh response).2 = true := by
    rcases complete_cases fresh n response with ⟨hterminated, -⟩ | ⟨-, sent, timerJ, hactions⟩
    · rw [hterminated] at h
      cases h
    · rw [hactions]
      rfl
  simp only [timedMachine, process] at hstate ⊢
  cases hs : n.state with
  | trying =>
    cases e <;> simp only [hs] at hstate ⊢
    case tuFinal response =>
      rw [runs_append]
      exact hfinal response _ hstate
    all_goals cases hstate
  | proceeding =>
    cases e <;> simp only [hs] at hstate ⊢
    case tuFinal response => exact hfinal response _ hstate
    all_goals cases hstate
  | completed =>
    have hrunning (h : e ≠ .timerJ) : before = true := by
      rcases hbefore (guard_completed hs) with hbefore | hexpiry
      · exact hbefore
      · cases hexpiry
        exact absurd rfl h
    cases e <;> simp only [hs] at hstate ⊢
    case timerJ => cases hstate
    case requestRetransmit request =>
      rw [hrunning (by simp), resend]
      cases n.lastResponse <;> rfl
    all_goals exact hrunning (by simp)
  | terminated =>
    cases e <;> simp only [hs] at hstate ⊢ <;> cases hstate

theorem step_terminated (h : n.state = .terminated) (now : Instant) (e : Text × NistEvent) :
  (timedMachine.step now n e).2 = []
  := by
  obtain ⟨fresh, e⟩ := e
  cases e <;> simp [timedMachine, process, h]

theorem guarded_run (request : SipMessage) (transport : Transport) (timers : TimerConfig)
    (now : Instant) (inputs : List (TimedInput (Text × NistEvent) TimerName)) :
  TimedMachine.Guarded guard
    (timedMachine.timed.run (timedMachine.start now (new request transport timers)) inputs)
  := by
  have hinv := invariant_guarded (m := timedMachine) (fun _ _ _ _ => trivial) keepsGuard ?_
  · refine (hinv.run ⟨trivial, ?_⟩ inputs).2
    intro name hname
    cases (eq_of_guard hname).1
  · intro now n name hname
    rw [(eq_of_guard hname).2]
    rfl

theorem endsByTimer {s : Nist × Running TimerName} (h : TimedMachine.Guarded guard s)
    (hs : s.1.state = .completed) :
  timedMachine.EndsByTimer (fun n => n.state = .terminated) s
  := by
  apply endsByTimer_of_final (h .j (guard_completed hs))
  intro now
  exact ⟨_, rfl, by simp [timedMachine, process, hs]⟩

end Nist

namespace Ist

def guard (t : Ist) : Option TimerName :=
  match t.state with
  | .completed => some .h
  | .confirmed => some .i
  | _ => none

variable [StdText]

/-- The input a timer of an INVITE server transaction brings. -/
def ofTimer : TimerName → Option (Text × IstEvent)
  | .g => some ([], .timerG)
  | .h => some ([], .timerH)
  | .i => some ([], .timerI)
  | _ => none

/-- An INVITE server transaction and its timers; each event comes with a tag to take if one is
needed. -/
def timedMachine : TimedMachine Ist (Text × IstEvent) Action TimerName where
  step _ t e := t.process e.1 e.2
  expiry _ := ofTimer
  effect := Action.effect

/-- `Completed` is entered by starting Timer H and `Confirmed` by starting Timer I; each is left
when its timer expires. -/
theorem keepsGuard :
  TimedMachine.KeepsGuard timedMachine (fun _ => True) guard
  := by
  rintro now t ⟨fresh, e⟩ _ name hname before hbefore
  change (t.process fresh e).1.guard = some name at hname
  change timedMachine.runs name before (t.process fresh e).2 = true
  unfold process at hname ⊢
  cases hs : t.state with
  | proceeding =>
    cases e <;> simp only [hs] at hname ⊢
    case tuNon2xxFinal response =>
      cases ht : t.transport <;> simp only [ht] at hname ⊢ <;> cases hname <;> rfl
    all_goals simp [guard, hs] at hname
  | completed =>
    have hguard : t.guard = some .h := by rw [guard, hs]
    have hrunning (hh : some .h = some name) (he : e ≠ .timerH) : before = true := by
      apply (hbefore (hguard.trans hh)).resolve_right
      cases hh
      simpa [timedMachine, ofTimer] using fun _ => he.symm
    cases e <;> simp only [hs] at hname ⊢
    case inviteRetransmit request =>
      rw [hrunning (hguard.symm.trans hname) (by simp), resend]
      cases t.lastResponse <;> rfl
    case timerG =>
      cases hr : t.lastResponse with
      | none =>
        rw [hr] at hname
        exact hrunning (hguard.symm.trans hname) (by simp)
      | some response =>
        simp only [hr, guard] at hname
        rw [hrunning hname (by simp)]
        cases hname
        rfl
    case timerH => cases hname
    case ackReceived request =>
      cases ht : t.transport
      all_goals
        simp only [ht] at hname ⊢
        split at hname
        · cases hname
        · cases hname
          rw [if_neg ‹_›]
          rfl
    all_goals exact hrunning (hguard.symm.trans hname) (by simp)
  | confirmed =>
    have hguard : t.guard = some .i := by rw [guard, hs]
    have hrunning (hh : some .i = some name) (he : e ≠ .timerI) : before = true := by
      apply (hbefore (hguard.trans hh)).resolve_right
      cases hh
      simpa [timedMachine, ofTimer] using fun _ => he.symm
    cases e <;> simp only [hs] at hname ⊢
    case timerI => cases hname
    all_goals exact hrunning (hguard.symm.trans hname) (by simp)
  | terminated | accepted =>
    cases e <;> simp [hs, guard] at hname

theorem step_ended {t : Ist} (h : t.state = .terminated ∨ t.state = .accepted) (now : Instant)
    (e : Text × IstEvent) :
  (timedMachine.step now t e).2 = []
  := by
  obtain ⟨fresh, e⟩ := e
  rcases h with h | h <;> cases e <;> simp [timedMachine, process, h]

theorem guarded_run (transport : Transport) (timers : TimerConfig) (now : Instant)
    (inputs : List (TimedInput (Text × IstEvent) TimerName)) :
  TimedMachine.Guarded guard
    (timedMachine.timed.run (timedMachine.start now (new transport timers, [])) inputs)
  := by
  have hinv := invariant_guarded (m := timedMachine) (fun _ _ _ _ => trivial) keepsGuard ?_
  · refine (hinv.run ⟨trivial, ?_⟩ inputs).2
    intro name hname
    cases hname
  · intro now t name hname
    rw [guard] at hname
    split at hname <;> cases hname <;> rfl

theorem endsByTimer {s : Ist × Running TimerName} (h : TimedMachine.Guarded guard s)
    (hs : s.1.state = .completed ∨ s.1.state = .confirmed) :
  timedMachine.EndsByTimer (fun t => t.state = .terminated) s
  := by
  rcases hs with hs | hs
  · apply endsByTimer_of_final (h .h (by rw [guard, hs]))
    intro now
    exact ⟨_, rfl, by simp [timedMachine, process, hs]⟩
  · apply endsByTimer_of_final (h .i (by rw [guard, hs]))
    intro now
    exact ⟨_, rfl, by simp [timedMachine, process, hs]⟩

end Ist

/-! ### Non-INVITE client transactions -/

namespace Nict

def guard (t : Nict) : Option TimerName :=
  match t.state with
  | .trying | .proceeding => some .f
  | .completed => some .k
  | .terminated => none

/-- The event a timer of a non-INVITE client transaction brings. -/
def ofTimer : TimerName → Option NictEvent
  | .e => some .timerE
  | .f => some .timerF
  | .k => some .timerK
  | .noResponse => some .noResponse
  | _ => none

def timedMachine : TimedMachine Nict NictInput Action TimerName where
  step _ := step
  expiry _ name := (ofTimer name).map NictInput.event
  effect := Action.effect

/-- The no-response timer runs only before the first response. -/
def Armed (t : Nict) : Prop :=
  t.noResponse = .armed → t.state = .trying

variable {t : Nict}

theorem runs_complete {response : SipMessage} (hname : (t.complete response).1.guard = some name)
    (before : Bool) :
  timedMachine.runs name before (t.complete response).2 = true
  := by
  rcases complete_cases t response with h | ⟨timerK, h⟩
  · rw [h] at hname
    cases hname
  · rw [h] at hname ⊢
    cases hname
    rfl

theorem runs_advance {e : NictEvent} {before : Bool} (hname : (t.advance e).1.guard = some name)
    (hbefore : t.guard = some name → before = true ∨ ofTimer name = some e) :
  timedMachine.runs name before (t.advance e).2 = true
  := by
  unfold advance at hname ⊢
  cases hs : t.state with
  | trying | proceeding =>
    have hguard : t.guard = some .f := by rw [guard, hs]
    have hrunning (hf : some .f = some name) (he : e ≠ .timerF) : before = true := by
      apply (hbefore (hguard.trans hf)).resolve_right
      cases hf
      simpa [ofTimer] using he.symm
    cases e <;> simp only [hs] at hname ⊢
    case timerF => cases hname
    case finalResponse response => exact runs_complete hname before
    case timerE =>
      simp only [guard, hs] at hname
      rw [hrunning hname (by simp)]
      cases hname
      rfl
    case provisional response =>
      simp only [guard, hs] at hname
      exact hrunning hname (by simp)
    all_goals exact hrunning (hguard.symm.trans hname) (by simp)
  | completed =>
    have hguard : t.guard = some .k := by rw [guard, hs]
    have hrunning (hk : some .k = some name) (he : e ≠ .timerK) : before = true := by
      apply (hbefore (hguard.trans hk)).resolve_right
      cases hk
      simpa [ofTimer] using he.symm
    cases e <;> simp only [hs] at hname ⊢
    case timerK => cases hname
    all_goals exact hrunning (hguard.symm.trans hname) (by simp)
  | terminated =>
    cases e <;> simp [hs, guard] at hname

theorem process_cases (t : Nict) (e : NictEvent) :
  (t.process e = t.advance e ∧ (t.noResponse = .armed → (t.advance e).1.state = .trying))
    ∨ (t.noResponse = .armed ∧ e = .noResponse ∧ t.process e = t.giveUp)
    ∨ t.process e = ({ (t.advance e).1 with noResponse := .off },
      (t.advance e).2 ++ [.cancelTimer .noResponse])
  := by
  unfold process
  split
  · rename_i h
    exact .inl ⟨rfl, fun ha => absurd ha h⟩
  rename_i harmed
  split
  · exact .inr (.inl ⟨not_not.mp harmed, rfl, rfl⟩)
  dsimp only
  split
  · exact .inr (.inr rfl)
  · rename_i h
    exact .inl ⟨rfl, fun _ => not_not.mp h⟩

theorem noResponse_advance (t : Nict) (e : NictEvent) :
  (t.advance e).1.noResponse = t.noResponse
  := by
  have hcomplete (response : SipMessage) : (t.complete response).1.noResponse = t.noResponse := by
    rcases complete_cases t response with h | ⟨timerK, h⟩ <;> rw [h]
  unfold advance
  cases t.state <;> cases e <;> first | rfl | exact hcomplete _

theorem armed_step (now : Instant) (t : Nict) (i : NictInput) (h : t.Armed) :
  (timedMachine.step now t i).1.Armed
  := by
  cases i with
  | armNoResponse after =>
    change (t.armNoResponse after).1.Armed
    unfold armNoResponse
    split
    · exact h
    · rename_i hstate
      exact fun _ => not_not.mp hstate
  | event e =>
    change (t.process e).1.Armed
    rcases process_cases t e with ⟨heq, hstate⟩ | ⟨-, -, heq⟩ | heq <;> rw [heq]
    · intro harmed
      exact hstate (noResponse_advance t e ▸ harmed)
    · unfold giveUp
      dsimp only
      split <;> exact fun harmed => by cases harmed
    · exact fun harmed => by cases harmed

theorem keepsGuard :
  TimedMachine.KeepsGuard timedMachine Armed guard
  := by
  intro now t i harmed name hname before hbefore
  cases i with
  | armNoResponse after =>
    change (t.armNoResponse after).1.guard = some name at hname
    change timedMachine.runs name before (t.armNoResponse after).2.toList = true
    have hrunning (hguard : t.guard = some name) : before = true := by
      apply (hbefore hguard).resolve_right
      simp [timedMachine]
    unfold armNoResponse at hname ⊢
    split at hname
    · rw [if_pos ‹_›]
      exact hrunning hname
    rename_i hstate
    have hguard : t.guard = some .f := by rw [guard, not_not.mp hstate]
    have hname' : t.guard = some name := hname
    rw [if_neg hstate, hrunning hname']
    cases hguard.symm.trans hname'
    rfl
  | event e =>
    change (t.process e).1.guard = some name at hname
    change timedMachine.runs name before (t.process e).2 = true
    have hbefore' (hguard : t.guard = some name) : before = true ∨ ofTimer name = some e := by
      rcases hbefore hguard with h | h
      · exact .inl h
      · simp [timedMachine] at h
        exact .inr h
    rcases process_cases t e with ⟨heq, -⟩ | ⟨ha, -, heq⟩ | heq <;> rw [heq] at hname ⊢
    · exact runs_advance hname hbefore'
    · simp [giveUp, harmed ha, guard] at hname
    · have hadvance := runs_advance hname hbefore'
      rw [runs_append, hadvance]
      rw [guard] at hname
      split at hname <;> cases hname <;> rfl

theorem step_terminated (h : t.state = .terminated) (harmed : t.Armed) (now : Instant)
    (i : NictInput) :
  (timedMachine.step now t i).2 = []
  := by
  have hoff : t.noResponse ≠ .armed := by
    intro ha
    rw [harmed ha] at h
    cases h
  cases i with
  | event e => cases e <;> simp [timedMachine, step, process, hoff, advance, h]
  | armNoResponse after => simp [timedMachine, step, armNoResponse, h]

theorem guarded_run (requestBytes : Bytes) (transport : Transport) (timers : TimerConfig)
    (now : Instant) (inputs : List (TimedInput NictInput TimerName)) :
  let s := timedMachine.timed.run
    (timedMachine.start now (new requestBytes transport timers)) inputs
  s.1.Armed ∧ TimedMachine.Guarded guard s
  := by
  have hinv := invariant_guarded (m := timedMachine) armed_step keepsGuard ?_
  · apply hinv.run
    refine ⟨fun _ => rfl, ?_⟩
    intro name hname
    cases hname
    cases transport <;> rfl
  · intro now t name hname
    rw [guard] at hname
    split at hname <;> cases hname <;> rfl

theorem state_process {e : NictEvent} {state : NictState} (he : e ≠ .noResponse)
    (h : (t.advance e).1.state = state) :
  (t.process e).1.state = state
  := by
  rcases process_cases t e with ⟨heq, -⟩ | ⟨-, hno, -⟩ | heq
  · rw [heq, h]
  · exact absurd hno he
  · rw [heq, h]

theorem endsByTimer {s : Nict × Running TimerName}
    (h : s.1.Armed ∧ TimedMachine.Guarded guard s) (hs : s.1.state ≠ .terminated) :
  timedMachine.EndsByTimer (fun t => t.state = .terminated) s
  := by
  cases hstate : s.1.state with
  | trying | proceeding =>
    apply endsByTimer_of_final (h.2 .f (by rw [guard, hstate]))
    intro now
    exact ⟨_, rfl, state_process (by simp) (by simp [advance, hstate])⟩
  | completed =>
    apply endsByTimer_of_final (h.2 .k (by rw [guard, hstate]))
    intro now
    exact ⟨_, rfl, state_process (by simp) (by simp [advance, hstate])⟩
  | terminated => exact absurd hstate hs

end Nict

end Siphon.Transaction
