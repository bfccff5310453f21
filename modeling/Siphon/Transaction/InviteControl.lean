import Siphon.Transaction.Client

/-!
# The control of an INVITE client transaction

What an INVITE client transaction is waiting for, and what it may do next, without the messages and
the times.
-/

namespace Siphon.Transaction

open List CancelProgress

/-! ### The control -/

inductive Label where
  | sendCancel
  | passToTu
  | timeout
  | terminated
  | start (name : TimerName)
  | stop (name : TimerName)
deriving DecidableEq

/-- What an action is about, if it is not only a message or a report. -/
@[simp] def Action.label : Action → Option Label
  | .sendCancel _ => some .sendCancel
  | .passToTu _ => some .passToTu
  | .timeout => some .timeout
  | .terminated => some .terminated
  | .startTimer name _ => some (.start name)
  | .cancelTimer name => some (.stop name)
  | .sendMessage _ | .sendFrame _ | .protocolError _ _ => none

def labels (actions : List Action) : List Label :=
  actions.filterMap Action.label

@[simp] theorem labels_nil :
  labels [] = []
  := rfl

@[simp] theorem labels_cons (action : Action) (actions : List Action) :
  labels (action :: actions) = action.label.toList ++ labels actions
  := by
  rw [labels, filterMap_cons]
  cases action.label <;> rfl

@[simp] theorem labels_append (first second : List Action) :
  labels (first ++ second) = labels first ++ labels second
  := filterMap_append

inductive CancelKind where
  | notRequested
  | waiting
  | sent
deriving DecidableEq

inductive IctKind where
  | timerA
  | timerB
  | timerC
  | timerD
  | provisional
  | response2xx
  | responseNon2xx
  | noResponse
deriving DecidableEq

structure IctControl where
  state : IctState
  cancel : CancelKind
  timerC : TimerCProgress
  noResponse : NoResponseProgress

instance : Fintype IctState where
  elems := {.calling, .proceeding, .completed, .terminated}
  complete s := by cases s <;> decide

instance : Fintype CancelKind where
  elems := {.notRequested, .waiting, .sent}
  complete k := by cases k <;> decide

instance : Fintype TimerCProgress where
  elems := {.idle, .armed, .expired}
  complete p := by cases p <;> decide

instance : Fintype NoResponseProgress where
  elems := {.off, .armed, .gaveUp}
  complete p := by cases p <;> decide

instance : Fintype IctKind where
  elems := {.timerA, .timerB, .timerC, .timerD, .provisional, .response2xx, .responseNon2xx,
    .noResponse}
  complete k := by cases k <;> decide

instance {p : IctControl → Prop} [DecidablePred p] : Decidable (∀ c, p c) :=
  decidable_of_iff (∀ state cancel timerC noResponse, p ⟨state, cancel, timerC, noResponse⟩)
    ⟨fun h c => h c.state c.cancel c.timerC c.noResponse, fun h _ _ _ _ => h _⟩

namespace IctControl

/-- What may come of an event. -/
abbrev Outcomes : Type := List (IctControl × List Label)

variable (c : IctControl)

def dropWaitingCancel : IctControl :=
  match c.cancel with
  | .waiting => { c with cancel := .notRequested }
  | _ => c

def releaseWaitingCancel : IctControl × List Label :=
  match c.cancel with
  | .waiting => ({ c with cancel := .sent }, [.sendCancel])
  | _ => (c, [])

def stopTimerC : IctControl × List Label :=
  match c.timerC with
  | .idle => (c, [])
  | _ => ({ c with timerC := .idle }, [.stop .c])

def expireTimerC : Outcomes :=
  match c.cancel with
  | .notRequested =>
    [({ c with timerC := .expired, cancel := .sent }, [.sendCancel, .start .c]),
      ({ c with timerC := .expired }, [.start .c])]
  | _ => [({ c with timerC := .expired }, [.start .c])]

def timerCDue : Outcomes :=
  match c.timerC with
  | .idle => [(c, [])]
  | .armed => (c, [.start .c]) :: c.expireTimerC
  | .expired => [({ c with state := .terminated }, [.timeout, .terminated])]

def startTimerC : Outcomes :=
  timerCDue { c with timerC := .armed }

def completeNon2xx : Outcomes :=
  let (c, stop) := match c.state with
    | .proceeding => c.stopTimerC
    | _ => (c.dropWaitingCancel, [])
  let labels := [.stop .a, .stop .b, .passToTu] ++ stop
  [({ c with state := .terminated }, labels ++ [.terminated]),
    ({ c with state := .completed }, labels ++ [.start .d])]

def giveUpUnanswered : Outcomes :=
  match c.noResponse with
  | .armed =>
    let c := { c with noResponse := .gaveUp }
    match c.cancel with
    | .notRequested =>
      [({ c with cancel := .waiting }, [.stop .a, .timeout]), (c, [.stop .a, .timeout])]
    | _ => [(c, [.stop .a, .timeout])]
  | _ => [(c, [])]

/-- The machine without the no-response timer. -/
def advance (event : IctKind) : Outcomes :=
  match c.state, event with
  | .calling, .timerA => [(c, [.start .a])]
  | .calling, .timerB =>
    [({ c with state := .terminated }.dropWaitingCancel, [.stop .a, .timeout, .terminated])]
  | .calling, .noResponse => c.giveUpUnanswered
  | .calling, .provisional =>
    let (c, release) := { c with state := .proceeding }.releaseWaitingCancel
    [(c, [.stop .a, .passToTu] ++ release)]
  | .calling, .response2xx =>
    [({ c with state := .terminated }.dropWaitingCancel,
      [.stop .a, .stop .b, .passToTu, .terminated])]
  | .calling, .responseNon2xx => c.completeNon2xx
  | .proceeding, .provisional => [(c, [.passToTu])]
  | .proceeding, .timerB => c.startTimerC
  | .proceeding, .timerC => c.timerCDue
  | .proceeding, .response2xx =>
    let (c, stop) := { c with state := .terminated }.stopTimerC
    [(c, [.stop .a, .stop .b, .passToTu, .terminated] ++ stop)]
  | .proceeding, .responseNon2xx => c.completeNon2xx
  | .completed, .timerD => [({ c with state := .terminated }, [.terminated])]
  | _, _ => [(c, [])]

/-- An INVITE the no-response timer gave up on. -/
def processGivenUp (event : IctKind) : Outcomes :=
  match c.state, event with
  | .calling, .timerB | .proceeding, .timerB =>
    [({ c with state := .terminated }.dropWaitingCancel, [.terminated])]
  | .calling, .provisional =>
    let (c, release) := { c with state := .proceeding }.releaseWaitingCancel
    [(c, if release = [] then [] else release ++ [.start .b])]
  | _, .timerA | _, .timerC | _, .noResponse | _, .provisional => [(c, [])]
  | _, .responseNon2xx =>
    (c.advance .responseNon2xx).map fun o => (o.1, o.2.filter fun l => l != .passToTu)
  | _, event => c.advance event

def process (event : IctKind) : Outcomes :=
  match c.noResponse with
  | .off => c.advance event
  | .gaveUp => c.processGivenUp event
  | .armed =>
    (c.advance event).map fun o =>
      if o.1.noResponse = .armed ∧ o.1.state ≠ .calling then
        ({ o.1 with noResponse := .off }, o.2 ++ [.stop .noResponse])
      else o

def requestCancel : Outcomes :=
  match c.state, c.cancel with
  | .calling, .notRequested => [({ c with cancel := .waiting }, []), (c, [])]
  | .proceeding, .notRequested => [({ c with cancel := .sent }, [.sendCancel]), (c, [])]
  | _, _ => [(c, [])]

/-- What comes of arming the no-response timer. -/
def armNoResponse : Outcomes :=
  if c.state ≠ .calling ∨ c.noResponse ≠ .off then [(c, [])]
  else [({ c with noResponse := .armed }, [.start .noResponse])]

def disarmNoResponse : Outcomes :=
  if c.noResponse ≠ .armed then [(c, [])]
  else [({ c with noResponse := .off }, [.stop .noResponse])]

end IctControl

/-! ### The transaction refines its control -/

def CancelProgress.kind : CancelProgress → CancelKind
  | .notRequested => .notRequested
  | .waiting _ => .waiting
  | .sent => .sent

def IctEvent.kind : IctEvent → IctKind
  | .timerA => .timerA
  | .timerB => .timerB
  | .timerC => .timerC
  | .timerD => .timerD
  | .provisional _ => .provisional
  | .response2xx _ => .response2xx
  | .responseNon2xx _ => .responseNon2xx
  | .noResponse => .noResponse

namespace Ict

variable (t : Ict)

def control : IctControl :=
  ⟨t.state, t.cancel.kind, t.timerC, t.noResponse⟩

def outcome (r : Ict × List Action) : IctControl × List Label :=
  (r.1.control, labels r.2)

theorem control_dropWaitingCancel :
  t.dropWaitingCancel.control = t.control.dropWaitingCancel
  := by
  rw [dropWaitingCancel, IctControl.dropWaitingCancel]
  cases h : t.cancel <;> simp [control, kind, h]

theorem control_noteProgress (now : Instant) (t : Ict) (response : SipMessage) :
  (noteProgress now t response).control = t.control
  := by
  rw [noteProgress]
  split <;> rfl

theorem control_releaseWaitingCancel :
  (t.releaseWaitingCancel.1.control,
      labels (t.releaseWaitingCancel.2.map Action.sendCancel).toList)
    = t.control.releaseWaitingCancel
  := by
  rw [releaseWaitingCancel, IctControl.releaseWaitingCancel]
  cases h : t.cancel <;> simp [control, kind, h]

theorem outcome_stopTimerC :
  outcome t.stopTimerC = t.control.stopTimerC
  := by
  rw [stopTimerC, IctControl.stopTimerC]
  cases h : t.timerC <;> simp [outcome, control, h]

/-- Timer D is started or the transaction ends. -/
theorem outcome_startTimerD :
  outcome t.startTimerD = ({ t.control with state := .terminated }, [.terminated])
    ∨ outcome t.startTimerD = ({ t.control with state := .completed }, [.start .d])
  := by
  rw [startTimerD]
  cases t.transport
  all_goals
    dsimp only
    split
    · exact .inl rfl
    · exact .inr rfl

theorem outcome_wait (lead : List Action) :
  outcome (t.startTimerD.1, lead ++ t.startTimerD.2)
    ∈ ([({ t.control with state := .terminated }, labels lead ++ [.terminated]),
      ({ t.control with state := .completed }, labels lead ++ [.start .d])] : IctControl.Outcomes)
  := by
  rcases outcome_startTimerD t with h | h
  · obtain ⟨hcontrol, hlabels⟩ := Prod.mk.inj h
    simp [outcome, hcontrol, hlabels]
  · obtain ⟨hcontrol, hlabels⟩ := Prod.mk.inj h
    simp [outcome, hcontrol, hlabels]

theorem labels_filter_passToTu (actions : List Action) :
  labels (actions.filter fun action => !isPassToTu action)
    = (labels actions).filter fun l => l != .passToTu
  := by
  induction actions with
  | nil => rfl
  | cons action actions ih =>
  rw [filter_cons, labels_cons, filter_append, ← ih]
  cases action <;> rfl

section

variable [StdText]

/-- Timer C does what the control foresees. -/
theorem outcome_expireTimerC (t : Ict) :
  outcome t.expireTimerC ∈ t.control.expireTimerC
  := by
  rw [expireTimerC, IctControl.expireTimerC]
  cases h : t.cancel with
  | notRequested =>
    cases hb : buildBranchCancel { t with timerC := .expired, cancel := .notRequested } [] <;>
      simp_all [outcome, control, kind]
  | waiting cancel | sent => simp [outcome, control, kind, h]

theorem outcome_timerCDue (now : Instant) (t : Ict) :
  outcome (timerCDue now t) ∈ t.control.timerCDue
  := by
  rw [timerCDue, IctControl.timerCDue]
  cases h : t.timerC with
  | idle | expired => simp [outcome, control, h]
  | armed =>
    have hc : t.control.timerC = .armed := h
    rw [hc]
    dsimp only
    split
    · simp [outcome]
    · exact mem_cons_of_mem _ (outcome_expireTimerC t)

theorem outcome_startTimerC (now : Instant) (t : Ict) :
  outcome (startTimerC now t) ∈ t.control.startTimerC
  := outcome_timerCDue now _

theorem control_ackNon2xx (t : Ict) (response : SipMessage) :
  outcome (t.ackNon2xx response) = (t.control, [])
  := by
  rw [ackNon2xx]
  split <;> rfl

/-- So does a final answer that is no 2xx. -/
theorem outcome_completeNon2xx (t : Ict) (response : SipMessage) :
  outcome (t.completeNon2xx response) ∈ t.control.completeNon2xx
  := by
  obtain ⟨hcontrol, hlabels⟩ := Prod.mk.inj (control_ackNon2xx t response)
  rw [completeNon2xx, IctControl.completeNon2xx, ← hcontrol]
  generalize t.ackNon2xx response = r at hlabels
  obtain ⟨t', ack⟩ := r
  dsimp only at hlabels ⊢
  have hstate : t'.control.state = t'.state := rfl
  rw [hstate]
  cases t'.state with
  | proceeding =>
    obtain ⟨hstop, hlabels'⟩ := Prod.mk.inj (outcome_stopTimerC t')
    have hwait := outcome_wait t'.stopTimerC.1
      (ack ++ [.cancelTimer .a, .cancelTimer .b, .passToTu response] ++ t'.stopTimerC.2)
    rw [labels_append, labels_append, hlabels, hstop, hlabels'] at hwait
    exact hwait
  | calling | completed | terminated =>
    have hwait := outcome_wait t'.dropWaitingCancel
      (ack ++ [.cancelTimer .a, .cancelTimer .b, .passToTu response] ++ [])
    rw [labels_append, labels_append, hlabels, control_dropWaitingCancel] at hwait
    exact hwait

/-- So does the lack of a response. -/
theorem outcome_giveUpUnanswered (t : Ict) :
  outcome t.giveUpUnanswered ∈ t.control.giveUpUnanswered
  := by
  rw [giveUpUnanswered, IctControl.giveUpUnanswered]
  have hno : t.control.noResponse = t.noResponse := rfl
  rw [hno]
  cases h : t.noResponse with
  | off | gaveUp => simp [outcome]
  | armed =>
  cases hc : t.cancel with
  | notRequested =>
    cases hb : buildBranchCancel { t with noResponse := .gaveUp, cancel := .notRequested } [] <;>
      simp_all [outcome, control, kind]
  | waiting cancel | sent => simp [outcome, control, kind, hc]

variable (now : Instant) (t : Ict) (event : IctEvent)

/-- So does every event. -/
theorem outcome_advance :
  outcome (advance now t event) ∈ t.control.advance event.kind
  := by
  have hstate : t.control.state = t.state := rfl
  unfold advance IctControl.advance
  rw [hstate]
  cases hs : t.state with
  | calling =>
    cases event <;> dsimp only [IctEvent.kind]
    case timerB =>
      rw [mem_singleton, outcome, control_dropWaitingCancel]
      rfl
    case noResponse => exact outcome_giveUpUnanswered t
    case provisional response =>
      have hrelease := control_releaseWaitingCancel
        (noteProgress now { t with state := .proceeding } response)
      rw [control_noteProgress] at hrelease
      obtain ⟨hcontrol, hlabels⟩ := Prod.mk.inj hrelease
      simp only [mem_singleton, outcome, labels_append, hlabels, hcontrol]
      rfl
    case response2xx response =>
      rw [mem_singleton, outcome, control_dropWaitingCancel]
      rfl
    case responseNon2xx response => exact outcome_completeNon2xx t response
    all_goals simp [outcome, control, hs]
  | proceeding =>
    cases event <;> dsimp only [IctEvent.kind]
    case provisional response =>
      rw [mem_singleton, outcome, control_noteProgress]
      rfl
    case timerB => exact outcome_startTimerC now t
    case timerC => exact outcome_timerCDue now t
    case response2xx response =>
      obtain ⟨hcontrol, hlabels⟩ := Prod.mk.inj (outcome_stopTimerC { t with state := .terminated })
      simp only [mem_singleton, outcome, labels_append, hlabels, hcontrol]
      rfl
    case responseNon2xx response => exact outcome_completeNon2xx t response
    all_goals simp [outcome]
  | completed =>
    cases event <;> dsimp only [IctEvent.kind]
    case responseNon2xx response =>
      rw [mem_singleton, outcome]
      cases t.cachedAck <;> rfl
    all_goals simp [outcome, control]
  | terminated => cases event <;> simp [outcome]

/-- So it does once the transaction is given up on. -/
theorem outcome_processGivenUp :
  outcome (processGivenUp now t event) ∈ t.control.processGivenUp event.kind
  := by
  have hstate : t.control.state = t.state := rfl
  have hresponse (response : SipMessage) :
      outcome ((advance now t (.responseNon2xx response)).1,
          (advance now t (.responseNon2xx response)).2.filter fun action => !isPassToTu action)
        ∈ (t.control.advance .responseNon2xx).map fun o =>
          (o.1, o.2.filter fun l => l != .passToTu) := by
    refine mem_map.mpr ⟨_, outcome_advance now t (.responseNon2xx response), ?_⟩
    simp [outcome, labels_filter_passToTu]
  have hadvance := outcome_advance now t event
  unfold processGivenUp IctControl.processGivenUp
  rw [hstate]
  cases hs : t.state with
  | calling =>
    cases event <;> dsimp only [IctEvent.kind]
    case timerB =>
      rw [mem_singleton, outcome, control_dropWaitingCancel]
      rfl
    case provisional response =>
      rw [mem_singleton, releaseWaitingCancel, IctControl.releaseWaitingCancel]
      cases hc : t.cancel <;> simp [outcome, control, kind, hc]
    case responseNon2xx response => exact hresponse response
    case timerD | response2xx => exact hadvance
    all_goals simp [outcome]
  | proceeding =>
    cases event <;> dsimp only [IctEvent.kind]
    case timerB =>
      rw [mem_singleton, outcome, control_dropWaitingCancel]
      rfl
    case responseNon2xx response => exact hresponse response
    case timerD | response2xx => exact hadvance
    all_goals simp [outcome]
  | completed | terminated =>
    cases event <;> dsimp only [IctEvent.kind]
    case responseNon2xx response => exact hresponse response
    case timerB | timerD | response2xx => exact hadvance
    all_goals simp [outcome]

theorem outcome_process :
  outcome (process now t event) ∈ t.control.process event.kind
  := by
  have hno : t.control.noResponse = t.noResponse := rfl
  rw [process, IctControl.process, hno]
  cases t.noResponse with
  | off => exact outcome_advance now t event
  | gaveUp => exact outcome_processGivenUp now t event
  | armed =>
    refine mem_map.mpr ⟨_, outcome_advance now t event, ?_⟩
    rcases advance now t event with ⟨t', actions⟩
    by_cases h : t'.noResponse = .armed ∧ t'.state ≠ .calling
    · have hcontrol : t'.control.noResponse = .armed ∧ t'.control.state ≠ .calling := h
      simp only [outcome, if_pos h, labels_append]
      exact if_pos hcontrol
    · have hcontrol : ¬ (t'.control.noResponse = .armed ∧ t'.control.state ≠ .calling) := h
      simp only [outcome, if_neg h]
      exact if_neg hcontrol

end

end Ict

/-! ### Everything that reaches a transaction -/

/-- What reaches an INVITE client transaction: responses and timers, the transaction user's
requests, and what is learnt of the hop. -/
inductive IctInput where
  | event (now : Instant) (event : IctEvent)
  | requestCancel (reasons : List Text)
  | setHop (hop : BranchHop)
  | setConnection (id : ConnectionId)
  | armNoResponse (after : Duration)
  | disarmNoResponse

/-- What comes out of a client transaction: an action, or a CANCEL for the transaction user to
send now. -/
inductive Output where
  | action (action : Action)
  | sendNow (cancel : BranchCancel)

def Output.label : Output → Option Label
  | .action a => a.label
  | .sendNow _ => some .sendCancel

def outputLabels (outputs : List Output) : List Label :=
  outputs.filterMap Output.label

@[simp] theorem outputLabels_map_action (actions : List Action) :
  outputLabels (actions.map Output.action) = labels actions
  := filterMap_map

def CancelOutcome.outputs : CancelOutcome → List Output
  | .sendNow cancel => [.sendNow cancel]
  | _ => []

inductive InputKind where
  | event (kind : IctKind)
  | requestCancel
  | hop
  | armNoResponse
  | disarmNoResponse
deriving DecidableEq

instance : Fintype InputKind where
  elems := {.event .timerA, .event .timerB, .event .timerC, .event .timerD, .event .provisional,
    .event .response2xx, .event .responseNon2xx, .event .noResponse, .requestCancel, .hop,
    .armNoResponse, .disarmNoResponse}
  complete k := by
    cases k with
    | event kind => cases kind <;> decide
    | requestCancel | hop | armNoResponse | disarmNoResponse => decide

def IctInput.kind : IctInput → InputKind
  | .event _ e => .event e.kind
  | .requestCancel _ => .requestCancel
  | .setHop _ | .setConnection _ => .hop
  | .armNoResponse _ => .armNoResponse
  | .disarmNoResponse => .disarmNoResponse

def IctControl.step (c : IctControl) : InputKind → Outcomes
  | .event kind => c.process kind
  | .requestCancel => c.requestCancel
  | .hop => [(c, [])]
  | .armNoResponse => c.armNoResponse
  | .disarmNoResponse => c.disarmNoResponse

namespace Ict

variable [StdText]

def step (t : Ict) : IctInput → Ict × List Output
  | .event now event => ((process now t event).1, (process now t event).2.map .action)
  | .requestCancel reasons => ((t.requestCancel reasons).1, (t.requestCancel reasons).2.outputs)
  | .setHop hop => (t.setHop hop, [])
  | .setConnection id => (t.setConnection id, [])
  | .armNoResponse after =>
    ((t.armNoResponse after).1, ((t.armNoResponse after).2.map Output.action).toList)
  -- the caller removes the timer if it was running
  | .disarmNoResponse =>
    (t.disarmNoResponse.1,
      if t.disarmNoResponse.2 then [.action (.cancelTimer .noResponse)] else [])

/-- The control simulates the transaction, input by input. -/
theorem outcome_step (t : Ict) (i : IctInput) :
  ((t.step i).1.control, outputLabels (t.step i).2) ∈ t.control.step i.kind
  := by
  cases i with
  | event now event =>
    have h := outcome_process now t event
    simpa [step, IctInput.kind, IctControl.step, outcome] using h
  | requestCancel reasons =>
    have hstate : t.control.state = t.state := rfl
    have hcancel : t.control.cancel = t.cancel.kind := rfl
    dsimp only [step, IctInput.kind, IctControl.step]
    unfold requestCancel IctControl.requestCancel
    rw [hstate, hcancel]
    cases hs : t.state <;> cases hc : t.cancel <;> dsimp only [kind]
    case calling.notRequested =>
      cases t.buildBranchCancel reasons <;>
        simp [control, hs, hc, kind, CancelOutcome.outputs, outputLabels]
    case proceeding.notRequested =>
      cases t.buildBranchCancel reasons <;>
        simp [control, hs, hc, kind, CancelOutcome.outputs, outputLabels,
          Output.label]
    all_goals exact mem_singleton.mpr rfl
  | setHop hop | setConnection id => exact mem_singleton.mpr rfl
  | armNoResponse after =>
    dsimp only [step, IctInput.kind, IctControl.step]
    rw [armNoResponse, IctControl.armNoResponse]
    by_cases h : t.state ≠ .calling ∨ t.noResponse ≠ .off
    · rw [if_pos h, if_pos (show t.control.state ≠ .calling ∨ t.control.noResponse ≠ .off from h)]
      exact mem_singleton.mpr rfl
    · rw [if_neg h,
        if_neg (show ¬ (t.control.state ≠ .calling ∨ t.control.noResponse ≠ .off) from h)]
      exact mem_singleton.mpr rfl
  | disarmNoResponse =>
    dsimp only [step, IctInput.kind, IctControl.step]
    rw [disarmNoResponse, IctControl.disarmNoResponse]
    by_cases h : t.noResponse ≠ .armed
    · rw [if_pos h, if_pos (show t.control.noResponse ≠ .armed from h)]
      exact mem_singleton.mpr rfl
    · rw [if_neg h, if_neg (show ¬ t.control.noResponse ≠ .armed from h)]
      exact mem_singleton.mpr rfl

end Ict

end Siphon.Transaction
