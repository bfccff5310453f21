import Siphon.Library.Inverse
import Siphon.Library.Run
import Siphon.Library.Text

/-!
# The memory of terminated calls

A Call-ID is remembered with a stamp, and the entries of a queue drop it from the front.
-/

namespace Siphon.B2bua

open List Owners

/-- The stamps by Call-ID, and the entries in the order they came. -/
structure TerminatedCalls where
  terminated : Text → Option ℕ := fun _ => none
  order : List (Text × ℕ) := []

/-- How long, and how many, entries are kept. -/
structure TerminatedLimits where
  ttl : ℕ
  capacity : ℕ

namespace TerminatedCalls

variable (limits : TerminatedLimits)

def evictTerminated (terminated : Text → Option ℕ) (now : ℕ) : List (Text × ℕ) → TerminatedCalls
  | [] => ⟨terminated, []⟩
  | entry :: rest =>
    if limits.ttl ≤ now - entry.2 ∨ limits.capacity < rest.length + 1 then
      evictTerminated (removeIf terminated entry) now rest
    else ⟨terminated, entry :: rest⟩

def rememberTerminated (calls : TerminatedCalls) (sipCallId : Text) (now : ℕ) : TerminatedCalls :=
  if sipCallId = [] then calls
  else
    evictTerminated limits (Function.update calls.terminated sipCallId (some now)) now
      (calls.order ++ [(sipCallId, now)])

def isRecentlyTerminated (calls : TerminatedCalls) (sipCallId : Text) : Bool :=
  sipCallId ≠ [] && (calls.terminated sipCallId).isSome

/-- Put out is the entry that came in. -/
def machine : Machine TerminatedCalls (Text × ℕ) (Text × ℕ) where
  step calls entry :=
    (calls.rememberTerminated limits entry.1 entry.2, if entry.1 = [] then [] else [entry])

/-- The stamp of the newest entry of a Call-ID. -/
def newest (order : List (Text × ℕ)) (sipCallId : Text) : Option ℕ :=
  order.reverse.lookup sipCallId

/-- The map holds the Call-IDs that are queued, with their newest stamps. -/
def Exact (calls : TerminatedCalls) : Prop :=
  ∀ sipCallId, calls.terminated sipCallId = newest calls.order sipCallId

/-- The entries at the front of a queue that are too old at an instant, or too many. -/
def evicted (now : ℕ) : List (Text × ℕ) → List (Text × ℕ)
  | [] => []
  | entry :: rest =>
    if limits.ttl ≤ now - entry.2 ∨ limits.capacity < rest.length + 1 then
      entry :: evicted now rest
    else []

/-- An eviction takes these entries from the queue, and each from the map if its stamp is there. -/
theorem evictTerminated_cases (terminated : Text → Option ℕ) (now : ℕ) (order : List (Text × ℕ)) :
  ∃ kept, order = evicted limits now order ++ kept
    ∧ evictTerminated limits terminated now order
      = ⟨(evicted limits now order).foldl removeIf terminated, kept⟩
    ∧ kept.length ≤ limits.capacity
    ∧ ∀ i entry, (evicted limits now order)[i]? = some entry →
      limits.ttl ≤ now - entry.2 ∨ limits.capacity + i < order.length
  := by
  induction order generalizing terminated with
  | nil => exact ⟨[], rfl, rfl, Nat.zero_le _, by simp [evicted]⟩
  | cons entry rest ih =>
  rw [evictTerminated, evicted]
  split
  · rename_i hevict
    obtain ⟨kept, hsplit, hevicted, hlength, hdropped⟩ := ih (removeIf terminated entry)
    refine ⟨kept, congrArg _ hsplit, hevicted, hlength, ?_⟩
    rintro (_ | i) old hold
    · obtain rfl := Option.some.inj hold
      exact hevict
    · have := hdropped i old hold
      rw [length_cons]
      omega
  · rename_i hkeep
    rw [not_or, not_lt] at hkeep
    exact ⟨entry :: rest, rfl, rfl, hkeep.2, by simp⟩

theorem newest_append (front back : List (Text × ℕ)) (sipCallId : Text) :
  newest (front ++ back) sipCallId = (newest back sipCallId).or (newest front sipCallId)
  := by
  rw [newest, reverse_append, lookup_append]
  rfl

theorem mem_of_newest {order : List (Text × ℕ)} {sipCallId : Text} {stamp : ℕ}
    (h : newest order sipCallId = some stamp) :
  (sipCallId, stamp) ∈ order
  := by
  obtain ⟨front, back, hsplit, -⟩ := lookup_eq_some_iff.mp h
  rw [← mem_reverse, hsplit]
  simp

/-- No entry is evicted that has the Call-ID and the stamp of the newest one that is kept, when an
entry comes to a queue. -/
def Apart (order : List (Text × ℕ)) (entry : Text × ℕ) : Prop :=
  entry.1 ≠ [] →
    ∀ kept, order ++ [entry] = evicted limits entry.2 (order ++ [entry]) ++ kept →
      ∀ sipCallId stamp, newest kept sipCallId = some stamp →
        (sipCallId, stamp) ∉ evicted limits entry.2 (order ++ [entry])

variable {calls : TerminatedCalls}

/-- An exact map stays exact under a step if and only if the entries are apart. -/
theorem exact_step (h : calls.Exact) (entry : Text × ℕ) :
  ((machine limits).step calls entry).1.Exact ↔ Apart limits calls.order entry
  := by
  rw [Apart, machine]
  dsimp only
  rw [rememberTerminated]
  split
  · simp [*]
  rename_i hid
  obtain ⟨kept, hsplit, hevicted, -, -⟩ := evictTerminated_cases limits
    (Function.update calls.terminated entry.1 (some entry.2)) entry.2 (calls.order ++ [entry])
  have hupdate : ∀ sipCallId, Function.update calls.terminated entry.1 (some entry.2) sipCallId
      = newest (calls.order ++ [entry]) sipCallId := by
    intro sipCallId
    rw [newest_append, ← h sipCallId, Function.update_apply]
    obtain ⟨last, now⟩ := entry
    by_cases hsame : sipCallId = last
    · simp [newest, hsame]
    · simp [newest, lookup_cons, hsame, beq_false_of_ne hsame]
  rw [hevicted]
  generalize evicted limits _ _ = dropped at *
  simp only [Exact, foldl_removeIf, hupdate, hsplit, newest_append, append_cancel_left_eq,
    forall_eq', ne_eq, hid, not_false_eq_true, true_imp_iff]
  refine forall_congr' fun sipCallId => ?_
  cases hkept : newest kept sipCallId with
  | some stamp => simp
  | none =>
  simp only [Option.none_or, reduceCtorEq, false_implies, implies_true, iff_true]
  cases hold : newest dropped sipCallId with
  | none => rfl
  | some stamp => simp [mem_of_newest hold]

/-- The queue is the end of what was remembered: an entry goes when it is too old or too many have
come after it. -/
def Keeps (now : ℕ) (log : List (Text × ℕ)) (calls : TerminatedCalls) : Prop :=
  ∃ dropped, log = dropped ++ calls.order ∧ ∀ i entry, dropped[i]? = some entry →
    limits.ttl ≤ now - entry.2 ∨ limits.capacity + i < log.length

/-- A step that is not after an instant keeps what is in time then and among the last. -/
theorem Keeps.step {now : ℕ} {log : List (Text × ℕ)} (h : Keeps limits now log calls)
    {entry : Text × ℕ} (hnow : entry.2 ≤ now) :
  Keeps limits now (log ++ ((machine limits).step calls entry).2)
    ((machine limits).step calls entry).1
  := by
  obtain ⟨dropped, rfl, hdropped⟩ := h
  rw [machine]
  dsimp only
  rw [rememberTerminated]
  split
  · rw [append_nil]
    exact ⟨dropped, rfl, hdropped⟩
  obtain ⟨kept, hsplit, hevicted, -, hmore⟩ := evictTerminated_cases limits
    (Function.update calls.terminated entry.1 (some entry.2)) entry.2 (calls.order ++ [entry])
  rw [hevicted]
  generalize evicted limits _ _ = more at *
  refine ⟨dropped ++ more, by rw [append_assoc, hsplit, append_assoc], ?_⟩
  intro i old hold
  simp only [length_append] at hdropped hmore ⊢
  by_cases hi : i < dropped.length
  · rw [getElem?_append_left hi] at hold
    have := hdropped i old hold
    omega
  · rw [getElem?_append_right (not_lt.mp hi)] at hold
    have := hmore _ old hold
    omega

theorem length_order_step (h : calls.order.length ≤ limits.capacity) (entry : Text × ℕ) :
  ((machine limits).step calls entry).1.order.length ≤ limits.capacity
  := by
  rw [machine]
  dsimp only
  rw [rememberTerminated]
  split
  · exact h
  · obtain ⟨kept, -, hevicted, hlength, -⟩ := evictTerminated_cases limits
      (Function.update calls.terminated entry.1 (some entry.2)) entry.2 (calls.order ++ [entry])
    rw [hevicted]
    exact hlength

end TerminatedCalls

open TerminatedCalls

/-- The queue never exceeds its capacity.  The map holds what is queued throughout a run if and only
if no entry is evicted that has the Call-ID and the stamp of the newest one kept.  What is in time
and among the last is queued, and remembered if the map is exact. -/
theorem terminated_calls_remembered (limits : TerminatedLimits) (entries : List (Text × ℕ)) :
  ((machine limits).run {} entries).order.length ≤ limits.capacity
    ∧ ((∀ before, before <+: entries → ((machine limits).run {} before).Exact)
      ↔ ∀ before entry, before ++ [entry] <+: entries →
        Apart limits ((machine limits).run {} before).order entry)
    ∧ ∀ now, (∀ entry ∈ entries, entry.2 ≤ now) → ∀ (i : ℕ) entry,
      ((machine limits).outputs {} entries)[i]? = some entry → now - entry.2 < limits.ttl →
      ((machine limits).outputs {} entries).length ≤ limits.capacity + i →
      entry ∈ ((machine limits).run {} entries).order
        ∧ (((machine limits).run {} entries).Exact →
          ((machine limits).run {} entries).terminated entry.1 ≠ none)
  := by
  refine ⟨?_, ?_, ?_⟩
  · have hinvariant : (machine limits).Invariant
        fun calls => calls.order.length ≤ limits.capacity :=
      fun _ entry h => length_order_step limits h entry
    exact hinvariant.run (Nat.zero_le _) entries
  · refine @Machine.Invariant.run_iff _ _ _ _ (fun _ => True) Exact
      (fun calls entry => Apart limits calls.order entry) (fun _ _ h => h) ?_ _ trivial
      (fun _ => rfl) entries
    exact fun _ entry _ h => exact_step limits h entry
  · intro now hnow i entry hlog hrecent hlast
    obtain ⟨dropped, hsplit, hdropped⟩ := @Machine.logged_of_allowed _ _ _ (machine limits)
      (Keeps limits now) (fun _ entry => entry.2 ≤ now) (fun _ _ _ hle h => h.step limits hle) {}
      ⟨[], rfl, by simp⟩ entries fun _ entry hpre => hnow entry (hpre.subset (by simp))
    have hmem : entry ∈ ((machine limits).run {} entries).order := by
      rw [hsplit, getElem?_append] at hlog
      split at hlog
      · have := hdropped i entry hlog
        omega
      · exact mem_of_getElem? hlog
    refine ⟨hmem, fun hexact => ?_⟩
    rw [hexact, newest, Ne, lookup_eq_none_iff]
    intro hnone
    simpa using hnone entry (mem_reverse.mpr hmem)

/-- A Call-ID that is remembered twice at one instant is forgotten when one more comes, although its
second entry is queued. -/
theorem remembered_twice_forgotten :
  let calls := (machine ⟨32, 2⟩).run {} [("a".toList, 0), ("a".toList, 0), ("b".toList, 0)]
  calls.order = [("a".toList, 0), ("b".toList, 0)] ∧ calls.isRecentlyTerminated "a".toList = false
  := by
  decide

end Siphon.B2bua
