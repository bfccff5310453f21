import Siphon.Ifc.FastPath
import Siphon.Ifc.ProfileStore

/-!
# The chain of application servers

A request visits the servers of its matching criteria in the order of their priorities: the first
one is taken, and the evaluation resumes after its priority.
-/

namespace Siphon.Ifc

open List

structure ApplicationServer where
  serverName : Text
  includeRegisterRequest : Bool
  includeRegisterResponse : Bool
  serviceInfo : Option Text

structure InitialFilterCriteria where
  priority : ℤ
  triggerPoint : Option TriggerPoint
  applicationServer : ApplicationServer
  defaultHandling : UInt32

structure MatchedApplicationServer where
  serverName : Text
  defaultHandling : UInt32
  serviceInfo : Option Text
  priority : ℤ
  includeRegisterRequest : Bool
  includeRegisterResponse : Bool

def InitialFilterCriteria.matched (ifc : InitialFilterCriteria) : MatchedApplicationServer :=
  ⟨ifc.applicationServer.serverName, ifc.defaultHandling, ifc.applicationServer.serviceInfo,
    ifc.priority, ifc.applicationServer.includeRegisterRequest,
    ifc.applicationServer.includeRegisterResponse⟩

section

variable [StdRegex]

def matchesIfc (ifc : InitialFilterCriteria) (request : IfcRequest) : Bool :=
  match ifc.triggerPoint with
  | none => true
  | some trigger => evaluateTriggerPoint trigger request

/-- The servers of the criteria that match, by priority, after one that was processed. -/
def evaluateIfcs (ifcs : List InitialFilterCriteria) (request : IfcRequest)
    (startAfterPriority : Option ℤ) : List MatchedApplicationServer :=
  ((ifcs.insertionSort fun a b => a.priority ≤ b.priority).filter fun ifc =>
    if startAfterPriority.any fun min => ifc.priority ≤ min then false
    else matchesIfc ifc request).map InitialFilterCriteria.matched

/-- A profile's own criteria and those of the shared sets it names, or the global ones. -/
def IfcStore.evaluate (store : IfcStore InitialFilterCriteria) (global : List InitialFilterCriteria)
    (request : IfcRequest) (startAfterPriority : Option ℤ) : List MatchedApplicationServer :=
  match store.profiles with
  | some userIfcs =>
    let shared := ((store.sharedIds.getD []).filterMap store.sharedSets.get?).flatten
    evaluateIfcs (userIfcs ++ shared) request startAfterPriority
  | none => evaluateIfcs global request startAfterPriority

/-- Take the first server that an evaluation gives, and resume after its priority. -/
def visit (evaluate : Option ℤ → List MatchedApplicationServer) :
    ℕ → Option ℤ → List MatchedApplicationServer
  | 0, _ => []
  | n + 1, start =>
    match evaluate start with
    | [] => []
    | server :: _ => server :: visit evaluate n (some server.priority)

variable {ifcs : List InitialFilterCriteria} {request : IfcRequest} {start : Option ℤ}

/-- Resuming after a priority leaves out what an earlier evaluation gives up to it. -/
theorem evaluateIfcs_some {priority : ℤ} (hlater : ∀ p ∈ start, p ≤ priority) :
  evaluateIfcs ifcs request (some priority)
    = (evaluateIfcs ifcs request start).filter fun server => priority < server.priority
  := by
  rw [evaluateIfcs, evaluateIfcs, filter_map, filter_filter]
  congr 1
  apply filter_congr
  intro ifc _
  cases start with
  | none =>
    simp only [InitialFilterCriteria.matched, Option.any_some, Option.any_none, Function.comp_apply]
    grind
  | some p =>
    have := hlater p rfl
    simp only [InitialFilterCriteria.matched, Option.any_some, Function.comp_apply]
    grind

/-- The criteria that are evaluated for a user, before any of them is matched. -/
def IfcStore.criteria (store : IfcStore InitialFilterCriteria)
    (global : List InitialFilterCriteria) : List InitialFilterCriteria :=
  match store.profiles with
  | some own => own ++ ((store.sharedIds.getD []).filterMap store.sharedSets.get?).flatten
  | none => global

theorem evaluate_eq_criteria (store : IfcStore InitialFilterCriteria)
    (global : List InitialFilterCriteria) :
  store.evaluate global request = evaluateIfcs (store.criteria global) request
  := by
  funext start
  rw [IfcStore.evaluate, IfcStore.criteria]
  cases store.profiles <;> rfl

/-- A first evaluation has the priorities of the criteria that match. -/
theorem priorities_evaluateIfcs :
  ((evaluateIfcs ifcs request none).map MatchedApplicationServer.priority).Perm
    ((ifcs.filter (matchesIfc · request)).map InitialFilterCriteria.priority)
  := by
  rw [evaluateIfcs, map_map]
  apply Perm.map
  simpa using (perm_insertionSort _ ifcs).filter _

theorem sorted_evaluateIfcs (start : Option ℤ) :
  (evaluateIfcs ifcs request start).Pairwise fun a b => a.priority ≤ b.priority
  := by
  have hsorted :=
    pairwise_insertionSort (fun a b : InitialFilterCriteria => a.priority ≤ b.priority) ifcs
  rw [evaluateIfcs, pairwise_map]
  exact hsorted.filter _

theorem lt_of_mem_evaluateIfcs {server : MatchedApplicationServer}
    (hmem : server ∈ evaluateIfcs ifcs request start) :
  ∀ p ∈ start, p < server.priority
  := by
  rintro p rfl
  rw [@evaluateIfcs_some _ _ _ none _ (by simp)] at hmem
  exact of_decide_eq_true (mem_filter.mp hmem).2

/-- The servers of a chain have growing priorities. -/
theorem visit_priorities (n : ℕ) (start : Option ℤ) :
  (visit (evaluateIfcs ifcs request) n start).Pairwise (fun a b => a.priority < b.priority)
    ∧ ∀ server ∈ visit (evaluateIfcs ifcs request) n start, ∀ p ∈ start, p < server.priority
  := by
  induction n generalizing start with
  | zero => simp [visit]
  | succ n ih =>
    rw [visit]
    cases hlist : evaluateIfcs ifcs request start with
    | nil => simp
    | cons first rest =>
      obtain ⟨hgrowing, hlater⟩ := ih (some first.priority)
      have hfirst := lt_of_mem_evaluateIfcs (hlist ▸ mem_cons_self)
      refine ⟨pairwise_cons.mpr ⟨fun server hmem => hlater server hmem _ rfl, hgrowing⟩, ?_⟩
      rw [forall_mem_cons]
      exact ⟨hfirst, fun server hmem p hp => (hfirst p hp).trans (hlater server hmem _ rfl)⟩

theorem visit_eq_of_growing {n : ℕ} (hn : (evaluateIfcs ifcs request start).length ≤ n)
    (hgrowing : (evaluateIfcs ifcs request start).Pairwise fun a b => a.priority < b.priority) :
  visit (evaluateIfcs ifcs request) n start = evaluateIfcs ifcs request start
  := by
  induction n generalizing start with
  | zero => rw [visit, length_eq_zero_iff.mp (Nat.le_zero.mp hn)]
  | succ n ih =>
    rw [visit]
    cases hlist : evaluateIfcs ifcs request start with
    | nil => rfl
    | cons first rest =>
      have hfirst := lt_of_mem_evaluateIfcs (hlist ▸ mem_cons_self)
      have hrest : evaluateIfcs ifcs request (some first.priority) = rest := by
        rw [evaluateIfcs_some fun p hp => (hfirst p hp).le, hlist]
        rw [hlist] at hgrowing
        rw [filter_cons_of_neg (by simp), filter_eq_self]
        exact fun server hmem => decide_eq_true (rel_of_pairwise_cons hgrowing hmem)
      rw [hlist] at hn hgrowing
      rw [← hrest] at hn hgrowing
      dsimp only
      rw [ih (Nat.le_of_succ_le_succ hn) hgrowing.of_cons, hrest]

/-- Taking the first server and resuming after its priority visits the servers that one evaluation
lists if and only if no two of the user's criteria that match the request have one priority. -/
theorem resumed_chain_iff (store : IfcStore InitialFilterCriteria)
    (global : List InitialFilterCriteria) (request : IfcRequest) (extra : ℕ) :
  visit (store.evaluate global request) ((store.evaluate global request none).length + extra) none
      = store.evaluate global request none
    ↔ (((store.criteria global).filter (matchesIfc · request)).map
        InitialFilterCriteria.priority).Nodup
  := by
  rw [evaluate_eq_criteria, ← priorities_evaluateIfcs.nodup_iff, Nodup, pairwise_map]
  constructor
  · intro heq
    rw [← heq]
    exact (visit_priorities _ none).1.imp ne_of_lt
  · intro hdistinct
    apply visit_eq_of_growing (Nat.le_add_right ..)
    exact (sorted_evaluateIfcs none).imp₂ (fun _ _ => lt_of_le_of_ne) hdistinct

end

/-- A criterion for every request. -/
def always (priority : ℤ) (server : Text) : InitialFilterCriteria :=
  ⟨priority, none, ⟨server, false, false, none⟩, 0⟩

/-- A profile with one criterion of its own and one of a shared set, of equal priority. -/
def ownAndShared : IfcStore InitialFilterCriteria :=
  { profiles := some [always 10 "sip:own".toList]
    sharedIds := some [1]
    sharedSets := IndexMap.empty.insert 1 [always 10 "sip:shared".toList] }

/-- The evaluation that resumes after the profile's own server passes over the shared one. -/
theorem ownAndShared_passed_over :
  (@IfcStore.evaluate ⟨fun _ => none⟩ ownAndShared [] originatingMessage none).length = 2
    ∧ (visit (@IfcStore.evaluate ⟨fun _ => none⟩ ownAndShared [] originatingMessage) 2 none).length
      = 1
  := by
  decide

end Siphon.Ifc
