import Siphon.Library.Run
import Siphon.Sip.Headers

/-!
# The header container as a map

Over any calls, the values of the container are those of a map from canonical names to lists of
values, and the entries of names that no call is for stay as they are, in their order.
-/

namespace IndexMap

open List

variable {κ ν : Type} [DecidableEq κ]

theorem filter_upsertList {p : κ → Bool} {k : κ} (hk : p k = false) (v : ν) (f : ν → ν)
    (es : List (κ × ν)) :
  (upsertList k v f es).filter (fun e => p e.1) = es.filter fun e => p e.1
  := by
  induction es with
  | nil => simp [upsertList, hk]
  | cons e es ih =>
  rw [upsertList]
  split
  · rename_i he
    simp [he, hk]
  · rw [filter_cons, filter_cons, ih]

end IndexMap

namespace Siphon

open List

inductive HeaderOp where
  | add (name value : Text)
  | set (name value : Text)
  | setAll (name : Text) (values : List Text)
  | remove (name : Text)

namespace HeaderOp

/-- The canonical name a change is for. -/
def key : HeaderOp → Text
  | add name _ => canonicalKey name
  | set name _ => canonicalKey name
  | setAll name _ => canonicalKey name
  | remove name => canonicalKey name

/-- What becomes of the values of its name. -/
def values (old : Option (List Text)) : HeaderOp → Option (List Text)
  | add _ value => some (old.getD [] ++ [value])
  | set _ value => some [value]
  | setAll _ values => some values
  | remove _ => none

end HeaderOp

def headerMachine : Machine SipHeaders HeaderOp Unit where
  step h
    | .add name value => (h.add name value, [])
    | .set name value => (h.set name value, [])
    | .setAll name values => (h.setAll name values, [])
    | .remove name => (h.remove name, [])

/-- A map from canonical names to values, under the same changes. -/
def valueMachine : Machine (Text → Option (List Text)) HeaderOp Unit where
  step view op := (Function.update view op.key (op.values (view op.key)), [])

namespace SipHeaders

variable (h : SipHeaders)

def view (key : Text) : Option (List Text) :=
  (h.headers.get? key).map Prod.snd

theorem view_upsert {h' : SipHeaders} {key : Text} {entry : Text × List Text}
    {f : Text × List Text → Text × List Text} (heq : h'.headers = h.headers.upsert key entry f) :
  h'.view = Function.update h.view key (some ((h.headers.get? key).elim entry f).2)
  := by
  funext j
  rw [Function.update_apply, view, heq, IndexMap.get?_upsert]
  split <;> rfl

/-- The map refines the table of values, step by step. -/
theorem view_step (op : HeaderOp) :
  (headerMachine.step h op).1.view = (valueMachine.step h.view op).1
  := by
  cases op with
  | add name value =>
    apply (h.view_upsert rfl).trans
    apply congrArg (Function.update h.view (canonicalKey name))
    rw [HeaderOp.values, view, HeaderOp.key]
    cases h.headers.get? (canonicalKey name) <;> rfl
  | set name value | setAll name values =>
    apply (h.view_upsert rfl).trans
    apply congrArg (Function.update h.view (canonicalKey name))
    cases h.headers.get? (canonicalKey name) <;> rfl
  | remove name =>
    funext key
    apply (congrArg (Option.map Prod.snd) (IndexMap.get?_shiftRemove ..)).trans
    apply Eq.symm
    apply (Function.update_apply ..).trans
    rw [apply_ite (Option.map Prod.snd)]
    rfl

theorem getAll_step (op : HeaderOp) (name : Text) :
  (headerMachine.step h op).1.getAll name
    = if canonicalKey name = op.key then op.values (h.view op.key) else h.getAll name
  := (congrFun (h.view_step op) (canonicalKey name)).trans (Function.update_apply ..)

theorem filter_step {p : Text → Bool} {op : HeaderOp} (hp : p op.key = false) :
  (headerMachine.step h op).1.headers.entries.filter (fun e => p e.1)
    = h.headers.entries.filter fun e => p e.1
  := by
  cases op with
  | remove name =>
    apply (filter_filter ..).trans
    apply filter_congr
    intro e _
    by_cases he : e.1 = canonicalKey name
    · rw [he, show p (canonicalKey name) = false from hp]
      rfl
    · simp [he]
  | _ => apply IndexMap.filter_upsertList hp

end SipHeaders

/-! ### Names that agree -/

/-- The compact forms and the names they stand for. -/
def headerForms : List (Text × Text) :=
  [("a", "accept-contact"), ("b", "referred-by"), ("c", "content-type"),
    ("d", "request-disposition"), ("e", "content-encoding"), ("f", "from"), ("i", "call-id"),
    ("j", "reject-contact"), ("k", "supported"), ("l", "content-length"), ("m", "contact"),
    ("o", "event"), ("r", "refer-to"), ("s", "subject"), ("t", "to"), ("u", "allow-events"),
    ("v", "via"), ("x", "session-expires"), ("y", "identity")].map
      fun form : String × String => (form.1.toList, form.2.toList)

/-- No two forms share a compact or a long name, and no name is both. -/
theorem headerForms_apart :
  ∀ form ∈ headerForms, headerForms.lookup form.1 = some form.2
    ∧ headerForms.lookup form.2 = none ∧ ∀ other ∈ headerForms, other.2 = form.2 → other = form
  := by
  decide +kernel

theorem compactForm_eq_lookup (c : Char) :
  compactForm c = headerForms.lookup [c]
  := by
  unfold compactForm
  split
  any_goals rfl
  apply (lookup_eq_none_iff.mpr _).symm
  simp_all [headerForms]

/-- The key of a name is the long form of the name in lower case. -/
theorem canonicalKey_eq_lookup (name : Text) :
  canonicalKey name
    = (headerForms.lookup name.toAsciiLowercase).getD name.toAsciiLowercase
  := by
  rcases name with _ | ⟨c, _ | ⟨d, cs⟩⟩
  · rfl
  · rw [canonicalKey, compactForm_eq_lookup]
    rfl
  · simp [canonicalKey, headerForms, Text.toAsciiLowercase, lookup_cons]

/-- Names have one key exactly if they are equal up to case or one is the compact form of the
other. -/
theorem sameHeaderName_iff (first second : Text) :
  sameHeaderName first second = true
    ↔ first.toAsciiLowercase = second.toAsciiLowercase
      ∨ (first.toAsciiLowercase, second.toAsciiLowercase) ∈ headerForms
      ∨ (second.toAsciiLowercase, first.toAsciiLowercase) ∈ headerForms
  := by
  have hmem : ∀ x y, headerForms.lookup x = some y ↔ (x, y) ∈ headerForms := by
    intro x y
    refine ⟨fun h => ?_, fun h => (headerForms_apart _ h).1⟩
    obtain ⟨front, back, hsplit, -⟩ := lookup_eq_some_iff.mp h
    simp [hsplit]
  have hlong : ∀ x y, (x, y) ∈ headerForms → headerForms.lookup y = none :=
    fun x y h => (headerForms_apart _ h).2.1
  have hone : ∀ x z y, (x, y) ∈ headerForms → (z, y) ∈ headerForms → z = x :=
    fun x z y h h' => congrArg Prod.fst ((headerForms_apart _ h).2.2 _ h' rfl)
  rw [sameHeaderName, beq_iff_eq, canonicalKey_eq_lookup, canonicalKey_eq_lookup]
  generalize first.toAsciiLowercase = x
  generalize second.toAsciiLowercase = y
  -- a long name is not looked up further, so at most one of the two names is compact
  cases hx : headerForms.lookup x <;> cases hy : headerForms.lookup y
  all_goals grind

/-- Names have one key exactly if they are equal up to case or one is the compact form of the other.
After any calls, the container has the values of a map under the same calls, one entry for a
name, and the entries it had of names no call was for, in their order. -/
theorem header_map (h : SipHeaders) (ops : List HeaderOp) :
  (∀ first second, canonicalKey first = canonicalKey second
      ↔ first.toAsciiLowercase = second.toAsciiLowercase
        ∨ (first.toAsciiLowercase, second.toAsciiLowercase) ∈ headerForms
        ∨ (second.toAsciiLowercase, first.toAsciiLowercase) ∈ headerForms)
    ∧ (headerMachine.run h ops).view = valueMachine.run h.view ops
    ∧ ((headerMachine.run h ops).headers.entries.map Prod.fst).Nodup
    ∧ ∀ p : Text → Bool, (∀ op ∈ ops, p op.key = false) →
      (headerMachine.run h ops).headers.entries.filter (fun e => p e.1)
        = h.headers.entries.filter fun e => p e.1
  := by
  refine ⟨fun first second => ?_, ?_, IndexMap.nodup _, ?_⟩
  · rw [← sameHeaderName_iff, sameHeaderName, beq_iff_eq]
  · induction ops generalizing h with
    | nil => rfl
    | cons op ops ih => rw [Machine.run_cons, ih, SipHeaders.view_step, Machine.run_cons]
  · intro p hp
    induction ops generalizing h with
    | nil => rfl
    | cons op ops ih =>
    rw [Machine.run_cons, ih _ fun op hop => hp op (mem_cons_of_mem _ hop),
      h.filter_step (hp op mem_cons_self)]

end Siphon
