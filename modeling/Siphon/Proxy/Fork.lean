import Siphon.Sip.Message

/-!
# Proxy forking and response aggregation

A forked request has one branch for each target.  The aggregator takes the responses of the
branches and says what goes upstream: the first 2xx or 6xx, or the best failure once every branch
has failed.
-/

namespace Siphon.Proxy

/-! ### The rank of a failure -/

/-- Where one final failure ranks when choosing what goes upstream. -/
structure ResponseRank where
  cls : ℕ
  standing : ℕ
  preferred : Bool
  statusCode : ℕ

namespace ResponseRank

/-- 4xx codes that tell the caller how to resubmit the request. -/
def resubmissionHints : List ℕ := [401, 407, 415, 420, 484]

/-- The rank of a status, where `preferred` decides between two responses the rules leave level. -/
def preferring (statusCode : ℕ) (preferred : Bool) : ResponseRank where
  cls :=
    if 600 ≤ statusCode ∧ statusCode ≤ 699 then 4
    else if 300 ≤ statusCode ∧ statusCode ≤ 399 then 3
    else if 400 ≤ statusCode ∧ statusCode ≤ 499 then 2
    else if 500 ≤ statusCode ∧ statusCode ≤ 599 then 1
    else 0
  standing :=
    if statusCode = 503 then 0
    else if resubmissionHints.contains statusCode then 2
    else 1
  preferred := preferred
  statusCode := statusCode

def of (statusCode : ℕ) : ResponseRank :=
  preferring statusCode false

/-- The order of the fields is the order of comparison. -/
def lt (a b : ResponseRank) : Bool :=
  a.cls < b.cls || a.cls == b.cls
    && (a.standing < b.standing || a.standing == b.standing
      && (!a.preferred && b.preferred || a.preferred == b.preferred
        && a.statusCode < b.statusCode))

theorem lt_iff (a b : ResponseRank) :
  a.lt b = true ↔ a.cls < b.cls ∨ (a.cls = b.cls ∧ (a.standing < b.standing ∨
    (a.standing = b.standing ∧ (a.preferred.toNat < b.preferred.toNat ∨
      (a.preferred.toNat = b.preferred.toNat ∧ a.statusCode < b.statusCode)))))
  := by
  cases ha : a.preferred <;> cases hb : b.preferred <;> simp [lt, ha, hb]

theorem lt_trans {a b c : ResponseRank} (hab : a.lt b) (hbc : b.lt c) :
  a.lt c
  := by
  rw [lt_iff] at *
  omega

theorem lt_irrefl (a : ResponseRank) :
  a.lt a = false
  := by
  rw [← Bool.not_eq_true, lt_iff]
  omega

end ResponseRank

/-- The last of the elements with the greatest key. -/
def maxByKey {α : Type} (key : α → ResponseRank) (l : List α) : Option α :=
  l.foldl (fun best x =>
    match best with
    | none => some x
    | some b => if (key x).lt (key b) then some b else some x) none

/-! ### Branches -/

inductive ForkStrategy where
  | parallel
  | sequential

inductive BranchState where
  | pending
  | trying
  | proceeding (statusCode : ℕ)
  | completed (statusCode : ℕ)
  | cancelled
deriving DecidableEq

def BranchState.isEnd : BranchState → Bool
  | .completed _ | .cancelled => true
  | _ => false

def BranchState.isAnswered : BranchState → Bool
  | .completed code => 200 ≤ code && code ≤ 299
  | _ => false

/-- Where a branch's final response came from. -/
inductive ResponseOrigin where
  | peer
  | «local»
deriving DecidableEq

structure ForkBranch where
  target : SipUri
  state : BranchState
  origin : ResponseOrigin
  response : Option SipMessage

inductive ForkAction where
  | forward2xx
  | forwardAnother2xx
  | forward6xx
  | continueWaiting
  | forwardBestError (statusCode : ℕ)
  | tryNext (index : ℕ)
  | forwardProvisional (statusCode : ℕ)
deriving DecidableEq

structure ForkAggregator where
  branches : List ForkBranch
  strategy : ForkStrategy
  sent100 : Bool
  finalForwarded : Bool
  bestResponse : Option SipMessage

namespace ForkAggregator

def new (targets : List SipUri) (strategy : ForkStrategy) : ForkAggregator :=
  ⟨targets.map fun target => ⟨target, .pending, .peer, none⟩, strategy, false, false, none⟩

variable (agg : ForkAggregator)

/-- Whether a final response has already gone upstream. -/
def hasSettled : Bool := agg.finalForwarded

def isComplete : Bool :=
  agg.branches.all fun branch => branch.state.isEnd

def setState (index : ℕ) (state : BranchState) : ForkAggregator :=
  { agg with branches := agg.branches.modify index fun branch => { branch with state } }

def markTrying (index : ℕ) : ForkAggregator := agg.setState index .trying

/-- The next final response on a branch is one of the proxy's own. -/
def markLocalFailure (index : ℕ) : ForkAggregator :=
  { agg with branches := agg.branches.modify index fun branch => { branch with origin := .local } }

/-- A final response goes upstream, and nothing is kept for the others. -/
def settle : ForkAggregator :=
  { agg with
    finalForwarded := true
    branches := agg.branches.map fun branch => { branch with response := none } }

def bestBranch : Option ℕ :=
  let failed := agg.branches.zipIdx.filterMap fun (branch, index) =>
    match branch.state with
    | .completed code =>
      if 300 ≤ code then
        some (index, ResponseRank.preferring code (branch.origin == .peer))
      else none
    | _ => none
  (maxByKey Prod.snd failed).map Prod.fst

/-- The challenges of the other branches, added to a response. -/
def collectChallenges (chosen : ℕ) (response : SipMessage) : SipMessage :=
  agg.branches.zipIdx.foldl (fun response (branch, index) =>
    if index = chosen ∨ ¬ (branch.state = .completed 401 ∨ branch.state = .completed 407) then
      response
    else
      match branch.response with
      | none => response
      | some other =>
        ["WWW-Authenticate".toList, "Proxy-Authenticate".toList].foldl (fun response name =>
          ((other.headers.getAll name).getD []).foldl (fun response value =>
            { response with headers := response.headers.add name value }) response) response)
    response

def settleOnBestFailure : ForkAggregator × ForkAction :=
  let best := agg.bestBranch
  let statusCode := (best.bind fun index =>
    match (agg.branches[index]?).map ForkBranch.state with
    | some (.completed code) => some code
    | _ => none).getD 500
  let bestResponse := best.bind fun index =>
    ((agg.branches[index]?).bind ForkBranch.response).map fun response =>
      if statusCode = 401 ∨ statusCode = 407 then agg.collectChallenges index response
      else response
  ({ agg with bestResponse := bestResponse }.settle, .forwardBestError statusCode)

def nextPendingBranch : Option ℕ :=
  agg.branches.findIdx? fun branch => branch.state == .pending

def onFailure : ForkAggregator × ForkAction :=
  match agg.strategy with
  | .parallel => if agg.isComplete then agg.settleOnBestFailure else (agg, .continueWaiting)
  | .sequential =>
    match agg.nextPendingBranch with
    | some next => (agg, .tryNext next)
    | none => agg.settleOnBestFailure

def onProvisional (index statusCode : ℕ) : ForkAggregator × ForkAction :=
  let agg := agg.setState index (.proceeding statusCode)
  if agg.finalForwarded then (agg, .continueWaiting)
  else if statusCode = 100 then
    if agg.sent100 then (agg, .continueWaiting)
    else ({ agg with sent100 := true }, .forwardProvisional statusCode)
  else (agg, .forwardProvisional statusCode)

def onFinal (index statusCode : ℕ) : ForkAggregator × ForkAction :=
  let answeredBefore := ((agg.branches[index]?).map ForkBranch.state).any BranchState.isAnswered
  let agg := agg.setState index (.completed statusCode)
  if 200 ≤ statusCode ∧ statusCode < 300 then
    if answeredBefore then (agg, .continueWaiting)
    else if agg.finalForwarded then (agg, .forwardAnother2xx)
    else (agg.settle, .forward2xx)
  else if 600 ≤ statusCode then
    if agg.finalForwarded then (agg, .continueWaiting) else (agg.settle, .forward6xx)
  else if agg.finalForwarded then (agg, .continueWaiting)
  else agg.onFailure

def onBranchResponse (index statusCode : ℕ) : ForkAggregator × ForkAction :=
  if agg.branches.length ≤ index then (agg, .continueWaiting)
  else if 100 ≤ statusCode ∧ statusCode < 200 then agg.onProvisional index statusCode
  else agg.onFinal index statusCode

/-- A final failure is kept until the fork settles. -/
def keepResponse (index statusCode : ℕ) (response : SipMessage) : ForkAggregator :=
  if 300 ≤ statusCode ∧ agg.finalForwarded = false then
    { agg with
      branches := agg.branches.modify index fun b => { b with response := some response } }
  else agg

/-- Feed a response of a branch; a final failure is kept. -/
def onResponse (index statusCode : ℕ) (response : SipMessage) : ForkAggregator × ForkAction :=
  (agg.keepResponse index statusCode response).onBranchResponse index statusCode

def takeBestResponse : ForkAggregator × Option SipMessage :=
  ({ agg with bestResponse := none }, agg.bestResponse)

end ForkAggregator

end Siphon.Proxy
