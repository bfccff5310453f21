import Siphon.Library.Run
import Siphon.Transaction.InviteControl

/-!
# What a client transaction reports

To its user a client transaction is a system of four phases: it waits for its final response, it
gave up on it, it has it, it has ended.
-/

namespace Siphon.Transaction

open List Transaction.Action

/-! ### Reports -/

inductive ResponseClass where
  | provisional
  | success
  | failure
deriving DecidableEq

/-- What the transaction user is told: of a response that came in, of a message that is not the
response that came in, or of a timeout. -/
inductive Report where
  | response (cls : ResponseClass)
  | stray
  | timeout
deriving DecidableEq

def Report.isFinal : Report → Bool
  | .response .success | .response .failure => true
  | _ => false

/-- What an action tells the transaction user, given the response that came in. -/
def Action.report (answer : Option (ResponseClass × SipMessage)) : Action → Option Report
  | .passToTu message =>
    match answer with
    | some (cls, response) => if response = message then some (.response cls) else some .stray
    | none => some .stray
  | .timeout => some .timeout
  | _ => none

/-! ### Phases -/

inductive Phase where
  | pending
  | abandoned
  | answered
  | ended
deriving DecidableEq

def Phase.moves : Phase → List (List Report × Phase)
  | .pending => [([], .pending), ([.response .provisional], .pending),
      ([.response .success], .answered), ([.response .success], .ended),
      ([.response .failure], .answered), ([.response .failure], .ended),
      ([.timeout], .abandoned), ([.timeout], .ended)]
  | .abandoned => [([], .abandoned), ([], .answered), ([], .ended), ([.response .success], .ended)]
  | .answered => [([], .answered), ([], .ended)]
  | .ended => [([], .ended)]

def Phase.Move (p : Phase) (reports : List Report) (p' : Phase) : Prop :=
  (reports, p') ∈ p.moves

instance {p : Phase} {reports : List Report} {q : Phase} : Decidable (p.Move reports q) :=
  inferInstanceAs (Decidable (_ ∈ _))

theorem Phase.move_nil (p : Phase) :
  p.Move [] p
  := by
  cases p <;> decide

def outcomes : List (List Report) :=
  [[], [.response .success], [.response .failure], [.timeout], [.timeout, .response .success]]

def Phase.Reports : Phase → List Report → Prop
  | .pending, reports =>
    ∃ n, ∃ tail ∈ outcomes, reports = List.replicate n (.response .provisional) ++ tail
  | .abandoned, reports => reports = [] ∨ reports = [.response .success]
  | .answered, reports | .ended, reports => reports = []

theorem Phase.Reports.cons {p q : Phase} {first rest : List Report} (hmove : p.Move first q)
    (hrest : q.Reports rest) :
  p.Reports (first ++ rest)
  := by
  cases p with
  | pending =>
    simp only [Phase.Move, Phase.moves, mem_cons, not_mem_nil, or_false, Prod.mk.injEq] at hmove
    rcases hmove with ⟨rfl, rfl⟩ | ⟨rfl, rfl⟩ | ⟨rfl, rfl⟩ | ⟨rfl, rfl⟩ | ⟨rfl, rfl⟩ | ⟨rfl, rfl⟩ |
      ⟨rfl, rfl⟩ | ⟨rfl, rfl⟩
    · exact hrest
    · obtain ⟨n, tail, htail, rfl⟩ := hrest
      exact ⟨n + 1, tail, htail, rfl⟩
    · exact ⟨0, [.response .success], by decide, congrArg _ hrest⟩
    · exact ⟨0, [.response .success], by decide, congrArg _ hrest⟩
    · exact ⟨0, [.response .failure], by decide, congrArg _ hrest⟩
    · exact ⟨0, [.response .failure], by decide, congrArg _ hrest⟩
    · rcases hrest with rfl | rfl
      · exact ⟨0, [.timeout], by decide, rfl⟩
      · exact ⟨0, [.timeout, .response .success], by decide, rfl⟩
    · exact ⟨0, [.timeout], by decide, congrArg _ hrest⟩
  | abandoned =>
    simp only [Phase.Move, Phase.moves, mem_cons, not_mem_nil, or_false, Prod.mk.injEq] at hmove
    rcases hmove with ⟨rfl, rfl⟩ | ⟨rfl, rfl⟩ | ⟨rfl, rfl⟩ | ⟨rfl, rfl⟩
    · exact hrest
    · exact .inl hrest
    · exact .inl hrest
    · exact .inr (congrArg _ hrest)
  | answered =>
    simp only [Phase.Move, Phase.moves, mem_cons, not_mem_nil, or_false, Prod.mk.injEq] at hmove
    rcases hmove with ⟨rfl, rfl⟩ | ⟨rfl, rfl⟩ <;> exact hrest
  | ended =>
    obtain ⟨rfl, rfl⟩ := Prod.mk.inj (mem_singleton.mp hmove)
    exact hrest

theorem Phase.reports_of_moves {p q : Phase} {reports : List Report}
    (h : Machine.Moves Phase.Move p reports q) :
  p.Reports reports
  := by
  induction h with
  | nil p =>
    cases p with
    | pending => exact ⟨0, [], by decide, rfl⟩
    | abandoned => exact .inl rfl
    | answered | ended => rfl
  | cons first _ ih => exact ih.cons first

theorem Phase.eq_success_of_reports {p : Phase} {reports : List Report} {r : Report}
    (hp : p ≠ .pending) (h : p.Reports reports) (hr : r ∈ reports) :
  r = .response .success
  := by
  cases p with
  | pending => exact absurd rfl hp
  | abandoned =>
    rcases h with rfl | rfl
    · cases hr
    · exact mem_singleton.mp hr
  | answered | ended =>
    rw [show reports = [] from h] at hr
    cases hr

/-- One outcome is reported: one final response at most, one timeout at most, and no timeout after
a final response. -/
structure OneOutcome (reports : List Report) : Prop where
  final : reports.countP Report.isFinal ≤ 1
  timeout : reports.count .timeout ≤ 1
  order : ∀ r, r.isFinal = true → ¬ [r, .timeout].Sublist reports
  response : .stray ∉ reports

theorem OneOutcome.cons_provisional {reports : List Report} (h : OneOutcome reports) :
  OneOutcome (.response .provisional :: reports)
  where
  final := by simpa [Report.isFinal] using h.final
  timeout := by simpa using h.timeout
  order r hr hsub := by
    rcases sublist_cons_iff.mp hsub with hsub | ⟨rest, heq, -⟩
    · exact h.order r hr hsub
    · rw [(List.cons.inj heq).1] at hr
      cases hr
  response := by simpa using h.response

theorem oneOutcome_of_mem_outcomes {reports : List Report} (h : reports ∈ outcomes) :
  OneOutcome reports
  where
  final := by revert reports; decide
  timeout := by revert reports; decide
  order r hr := by
    cases r with
    | response cls => cases cls <;> revert reports <;> decide
    | stray | timeout => cases hr
  response := by revert reports; decide

theorem oneOutcome_of_reports {reports : List Report} (h : Phase.pending.Reports reports) :
  OneOutcome reports
  := by
  obtain ⟨n, tail, htail, rfl⟩ := h
  induction n with
  | zero => exact oneOutcome_of_mem_outcomes htail
  | succ n ih => exact ih.cons_provisional

/-! ### INVITE client transactions -/

/-- The class of the response an event brings. -/
def IctKind.cls : IctKind → Option ResponseClass
  | .provisional => some .provisional
  | .response2xx => some .success
  | .responseNon2xx => some .failure
  | _ => none

def InputKind.cls : InputKind → Option ResponseClass
  | .event kind => kind.cls
  | _ => none

def IctEvent.answer : IctEvent → Option (ResponseClass × SipMessage)
  | .provisional response => some (.provisional, response)
  | .response2xx response => some (.success, response)
  | .responseNon2xx response => some (.failure, response)
  | _ => none

def IctInput.answer : IctInput → Option (ResponseClass × SipMessage)
  | .event _ e => e.answer
  | _ => none

def Output.report (answer : Option (ResponseClass × SipMessage)) : Output → Option Report
  | .action a => a.report answer
  | .sendNow _ => none

def Label.report (cls : Option ResponseClass) : Label → Option Report
  | .passToTu => some ((cls.map Report.response).getD .stray)
  | .timeout => some .timeout
  | _ => none

/-- Where the control stands with the user. -/
def IctControl.phase (c : IctControl) : Phase :=
  match c.state with
  | .terminated => .ended
  | .completed => .answered
  | .calling | .proceeding => if c.noResponse = .gaveUp then .abandoned else .pending

theorem IctControl.phase_of_terminated {c : IctControl} (h : c.state = .terminated) :
  c.phase = .ended
  := by
  rw [phase, h]

theorem IctControl.phase_of_gaveUp {c : IctControl} (h : c.noResponse = .gaveUp) :
  c.phase ≠ .pending
  := by
  rw [phase, h]
  cases c.state <;> decide

/-- Every input moves the outcome along. -/
theorem IctControl.move_step :
  ∀ (c : IctControl) (k : InputKind), ∀ o ∈ c.step k,
    c.phase.Move (o.2.filterMap (Label.report k.cls)) o.1.phase
  := by
  decide +kernel

theorem IctControl.passToTu_step :
  ∀ (c : IctControl) (k : InputKind), k.cls = none → ∀ o ∈ c.step k, Label.passToTu ∉ o.2
  := by
  decide +kernel

namespace Ict

theorem passToTu_stopTimerC (t : Ict) (message : SipMessage) :
  .passToTu message ∉ t.stopTimerC.2
  := by
  rw [stopTimerC]
  split <;> simp

theorem passToTu_startTimerD (t : Ict) (message : SipMessage) :
  .passToTu message ∉ t.startTimerD.2
  := by
  rw [startTimerD]
  cases t.transport
  all_goals
    dsimp only
    split <;> simp

variable [StdText]

theorem passToTu_ackNon2xx (t : Ict) (response message : SipMessage) :
  .passToTu message ∉ (t.ackNon2xx response).2
  := by
  rw [ackNon2xx]
  split <;> simp

variable {response message : SipMessage}

theorem passToTu_completeNon2xx {t : Ict} (h : .passToTu message ∈ (t.completeNon2xx response).2) :
  message = response
  := by
  rw [completeNon2xx] at h
  have hack := passToTu_ackNon2xx t response message
  generalize t.ackNon2xx response = r at h hack
  obtain ⟨t', ack⟩ := r
  dsimp only at h hack
  have hstop (s : Ict × List Action) (hs : .passToTu message ∉ s.2)
      (h : .passToTu message ∈ ack ++ [.cancelTimer .a, .cancelTimer .b, .passToTu response]
        ++ s.2 ++ s.1.startTimerD.2) : message = response := by
    simpa [hack, hs, passToTu_startTimerD] using h
  cases hs : t'.state <;> rw [hs] at h
  case proceeding => exact hstop _ (passToTu_stopTimerC t' message) h
  all_goals exact hstop (t'.dropWaitingCancel, []) (by simp) h

section

variable {now : Instant} {t : Ict} {e : IctEvent} {cls : ResponseClass}
  (he : e.answer = some (cls, response))
include he

theorem passToTu_advance (h : .passToTu message ∈ (advance now t e).2) :
  message = response
  := by
  unfold advance at h
  cases e with
  | provisional =>
    cases he
    cases hs : t.state <;> simp [hs] at h <;> exact h
  | response2xx =>
    cases he
    cases hs : t.state <;> simp [hs, passToTu_stopTimerC] at h <;> exact h
  | responseNon2xx =>
    cases he
    cases hs : t.state <;> simp only [hs] at h
    case calling | proceeding => exact passToTu_completeNon2xx h
    case completed => cases hack : t.cachedAck <;> simp [hack] at h
    case terminated => cases h
  | timerA | timerB | timerC | timerD | noResponse => cases he

theorem passToTu_processGivenUp (h : .passToTu message ∈ (processGivenUp now t e).2) :
  message = response
  := by
  unfold processGivenUp at h
  cases e with
  | provisional =>
    cases hs : t.state <;> simp only [hs] at h
    case calling => split at h <;> simp at h
    all_goals cases h
  | response2xx =>
    cases hs : t.state <;> simp only [hs] at h <;> exact passToTu_advance he h
  | responseNon2xx =>
    cases hs : t.state <;> simp [hs, isPassToTu] at h
  | timerA | timerB | timerC | timerD | noResponse => cases he

theorem passToTu_process (h : .passToTu message ∈ (process now t e).2) :
  message = response
  := by
  unfold process at h
  cases hno : t.noResponse <;> simp only [hno] at h
  case off => exact passToTu_advance he h
  case gaveUp => exact passToTu_processGivenUp he h
  case armed =>
    split at h
    · exact passToTu_advance he (by simpa using h)
    · exact passToTu_advance he h

end

theorem passToTu_step {t : Ict} {i : IctInput} (h : .action (.passToTu message) ∈ (t.step i).2) :
  ∃ cls, i.answer = some (cls, message)
  := by
  have hmem : Label.passToTu ∈ outputLabels (t.step i).2 := mem_filterMap.mpr ⟨_, h, rfl⟩
  have hcls : i.kind.cls ≠ none := by
    intro hnone
    exact IctControl.passToTu_step t.control i.kind hnone _ (t.outcome_step i) hmem
  cases i with
  | event now e =>
    have hprocess : .passToTu message ∈ (process now t e).2 := by simpa [step] using h
    cases e with
    | provisional | response2xx | responseNon2xx =>
      rw [passToTu_process rfl hprocess]
      exact ⟨_, rfl⟩
    | timerA | timerB | timerC | timerD | noResponse => exact absurd rfl hcls
  | requestCancel | setHop | setConnection | armNoResponse | disarmNoResponse =>
    exact absurd rfl hcls

theorem report_step (t : Ict) (i : IctInput) :
  (t.step i).2.filterMap (Output.report i.answer)
    = (outputLabels (t.step i).2).filterMap (Label.report i.kind.cls)
  := by
  have hcls : i.kind.cls = i.answer.map Prod.fst := by
    cases i with
    | event now e => cases e <;> rfl
    | requestCancel | setHop | setConnection | armNoResponse | disarmNoResponse => rfl
  rw [outputLabels, filterMap_filterMap]
  apply filterMap_congr
  intro o ho
  cases o with
  | sendNow cancel => rfl
  | action a =>
  cases a with
  | passToTu message =>
    obtain ⟨cls, hanswer⟩ := passToTu_step ho
    simp [Output.report, report, Output.label, Label.report, hcls, hanswer]
  | _ => rfl

def machine : Machine Ict IctInput Output where
  step := step

def reports (t : Ict) (inputs : List IctInput) : List Report :=
  (machine.trace t inputs).flatMap fun e => e.2.filterMap (Output.report e.1.answer)

theorem refines_phase :
  machine.Refines Phase.Move (fun t => t.control.phase)
    fun i outputs => outputs.filterMap (Output.report i.answer)
  := by
  intro t i
  have hmove := IctControl.move_step t.control i.kind _ (t.outcome_step i)
  rwa [← report_step] at hmove

theorem reports_phase (t : Ict) (inputs : List IctInput) :
  t.control.phase.Reports (t.reports inputs)
  := Phase.reports_of_moves (refines_phase.moves t inputs)

end Ict

/-! ### Non-INVITE client transactions -/

def NictEvent.answer : NictEvent → Option (ResponseClass × SipMessage)
  | .provisional response => some (.provisional, response)
  | .finalResponse response =>
    some (if response.statusCode.any fun code => 200 ≤ code && code < 300 then .success
      else .failure, response)
  | _ => none

/-- What reaches a non-INVITE client transaction: responses and timers, and the transaction user's
bound on a first response. -/
inductive NictInput where
  | event (event : NictEvent)
  | armNoResponse (after : Duration)

def NictInput.answer : NictInput → Option (ResponseClass × SipMessage)
  | .event e => e.answer
  | .armNoResponse _ => none

namespace Nict

variable (t : Nict)

/-- Where a transaction stands with its user. -/
def phase : Phase :=
  match t.state with
  | .trying | .proceeding => .pending
  | .completed => .answered
  | .terminated => .ended

def step : NictInput → Nict × List Action
  | .event e => t.process e
  | .armNoResponse after => ((t.armNoResponse after).1, (t.armNoResponse after).2.toList)

/-- A non-INVITE client transaction and all that reaches it. -/
def machine : Machine Nict NictInput Action where
  step := step

def reports (inputs : List NictInput) : List Report :=
  (machine.trace t inputs).flatMap fun e => e.2.filterMap (report e.1.answer)

theorem complete_cases (response : SipMessage) :
  t.complete response = ({ t with state := .terminated },
      [.cancelTimer .e, .cancelTimer .f, .passToTu response, .terminated])
    ∨ ∃ timerK, t.complete response = ({ t with state := .completed },
      [.cancelTimer .e, .cancelTimer .f, .passToTu response, .startTimer .k timerK])
  := by
  unfold complete
  cases t.transport
  all_goals
    dsimp only
    split
    · exact .inl rfl
    · exact .inr ⟨_, rfl⟩

theorem report_finalResponse (response : SipMessage) :
  ∃ cls, (NictEvent.finalResponse response).answer = some (cls, response)
    ∧ (cls = .success ∨ cls = .failure)
  := by
  rw [NictEvent.answer]
  split
  · exact ⟨_, rfl, .inl rfl⟩
  · exact ⟨_, rfl, .inr rfl⟩

theorem move_complete (response : SipMessage) :
  Phase.pending.Move
    ((t.complete response).2.filterMap (report (NictEvent.finalResponse response).answer))
    (t.complete response).1.phase
  := by
  obtain ⟨cls, hanswer, hcls⟩ := report_finalResponse response
  rw [hanswer]
  rcases complete_cases t response with h | ⟨timerK, h⟩ <;> rw [h] <;>
    rcases hcls with rfl | rfl <;> simp [filterMap_cons, report, phase, Phase.Move, Phase.moves]

theorem move_advance (e : NictEvent) :
  t.phase.Move ((t.advance e).2.filterMap (report e.answer)) (t.advance e).1.phase
  := by
  have hstay := t.phase.move_nil
  unfold advance
  cases hs : t.state with
  | trying | proceeding =>
    have hphase : t.phase = .pending := by rw [phase, hs]
    rw [hphase] at hstay ⊢
    cases e with
    | finalResponse response => exact move_complete t response
    | timerK | noResponse => simpa [hphase] using hstay
    | _ => simp [filterMap_cons, report, NictEvent.answer, phase, hs, Phase.Move, Phase.moves]
  | completed =>
    cases e with
    | timerK => simp [filterMap_cons, report, phase, hs, Phase.Move, Phase.moves]
    | _ => simpa using hstay
  | terminated => cases e <;> simpa using hstay

theorem move_giveUp :
  t.phase.Move (t.giveUp.2.filterMap (report none)) t.giveUp.1.phase
  := by
  unfold giveUp
  dsimp only
  split
  · exact t.phase.move_nil
  rename_i hstate
  have hphase : t.phase = .pending := by rw [phase, not_not.mp hstate]
  rw [hphase]
  exact mem_of_mem_getLast? rfl

theorem move_process (e : NictEvent) :
  t.phase.Move ((t.process e).2.filterMap (report e.answer)) (t.process e).1.phase
  := by
  have hadvance := move_advance t e
  unfold process
  split
  · exact hadvance
  cases e with
  | noResponse => exact move_giveUp t
  | _ =>
  dsimp only
  split
  · rw [filterMap_append, show [cancelTimer .noResponse].filterMap _ = [] from rfl,
      append_nil]
    exact hadvance
  · exact hadvance

theorem refines_phase :
  machine.Refines Phase.Move phase fun i actions => actions.filterMap (report i.answer)
  := by
  intro t i
  cases i with
  | event e => exact move_process t e
  | armNoResponse after =>
  simp only [machine, step, armNoResponse]
  split <;> exact t.phase.move_nil

theorem reports_phase (inputs : List NictInput) :
  t.phase.Reports (t.reports inputs)
  := Phase.reports_of_moves (refines_phase.moves t inputs)

end Nict

/-! ### One outcome -/

variable [StdText]

/-- Over every run a client transaction reports one outcome, and nothing once it has ended; an
INVITE that was given up on is still reported as answered if a 2xx comes, and nothing else. -/
theorem reports_one_outcome (requestBytes : Bytes) (transport : Transport) (timers : TimerConfig) :
  (∀ inputs, OneOutcome ((Ict.new requestBytes transport timers).1.reports inputs))
    ∧ (∀ inputs, OneOutcome ((Nict.new requestBytes transport timers).1.reports inputs))
    ∧ (∀ before after,
      let t := Ict.machine.run (Ict.new requestBytes transport timers).1 before
      (t.state = .terminated → t.reports after = [])
        ∧ (t.gaveUp = true → ∀ r ∈ t.reports after, r = .response .success))
    ∧ ∀ before after,
      let t := Nict.machine.run (Nict.new requestBytes transport timers).1 before
      t.state = .terminated → t.reports after = []
  := by
  refine ⟨fun inputs => ?_, fun inputs => ?_, fun before after => ?_, fun before after => ?_⟩
  · exact oneOutcome_of_reports ((Ict.new requestBytes transport timers).1.reports_phase inputs)
  · exact oneOutcome_of_reports ((Nict.new requestBytes transport timers).1.reports_phase inputs)
  · intro t
    have hreports := t.reports_phase after
    constructor
    · intro hstate
      have hphase : t.control.phase = .ended := IctControl.phase_of_terminated hstate
      rwa [hphase] at hreports
    · intro hgaveUp r hr
      have hphase : t.control.phase ≠ .pending :=
        IctControl.phase_of_gaveUp (beq_iff_eq.mp hgaveUp)
      exact Phase.eq_success_of_reports hphase hreports hr
  · intro t hstate
    have hreports := t.reports_phase after
    rwa [Nict.phase, hstate] at hreports

end Siphon.Transaction
