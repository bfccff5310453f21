import Siphon.Library.Run
import Siphon.Transaction.InviteControl

/-!
# The CANCEL of an INVITE client transaction

Over every run of an INVITE client transaction at most one CANCEL is released, after a provisional
response and before any final one, and a CANCEL is held back only while the transaction is in
`Calling`.
-/

namespace Siphon.Transaction

open List

/-! ### The control tables -/

namespace IctControl

/-- Whether the INVITE is still owed its final response. -/
def pending (c : IctControl) : Bool :=
  c.state == .calling || c.state == .proceeding

def cancelsLeft (c : IctControl) : ℕ :=
  if c.pending && c.cancel != .sent then 1 else 0

/-- Each CANCEL sent uses up one that was left. -/
theorem count_sendCancel_step :
  ∀ (c : IctControl) (k : InputKind), ∀ o ∈ c.step k,
    o.2.count .sendCancel + o.1.cancelsLeft ≤ c.cancelsLeft
  := by
  decide +kernel

theorem state_of_sendCancel :
  ∀ (c : IctControl) (k : InputKind), ∀ o ∈ c.step k, Label.sendCancel ∈ o.2 →
    c.pending = true ∧ (c.state = .proceeding ∨ k = .event .provisional)
      ∧ k ≠ .event .response2xx ∧ k ≠ .event .responseNon2xx
  := by
  decide +kernel

theorem state_of_proceeding :
  ∀ (c : IctControl) (k : InputKind), ∀ o ∈ c.step k, o.1.state = .proceeding →
    c.state = .proceeding ∨ c.state = .calling ∧ k = .event .provisional
  := by
  decide +kernel

theorem pending_of_pending_step :
  ∀ (c : IctControl) (k : InputKind), ∀ o ∈ c.step k, o.1.pending = true →
    c.pending = true ∧ k ≠ .event .response2xx ∧ k ≠ .event .responseNon2xx
  := by
  decide +kernel

theorem waiting_step :
  ∀ (c : IctControl) (k : InputKind), (c.cancel = .waiting → c.state = .calling) →
    ∀ o ∈ c.step k, o.1.cancel = .waiting → o.1.state = .calling
  := by
  decide +kernel

end IctControl

/-! ### A branch -/

/-- What reaches a branch: what reaches its transaction, and the failure of its transport. -/
inductive BranchInput where
  | input (input : IctInput)
  | transportError

def BranchInput.isProvisional : BranchInput → Bool
  | .input (.event _ (.provisional _)) => true
  | _ => false

def BranchInput.isFinal : BranchInput → Bool
  | .input (.event _ (.response2xx _)) => true
  | .input (.event _ (.responseNon2xx _)) => true
  | _ => false

theorem isProvisional_of_kind {j : IctInput} (h : j.kind = .event .provisional) :
  (BranchInput.input j).isProvisional = true
  := by
  cases j with
  | event now e =>
    cases e with
    | provisional response => rfl
    | _ => cases h
  | _ => cases h

theorem isFinal_of_kind {j : IctInput} (h2xx : j.kind ≠ .event .response2xx)
    (hnon2xx : j.kind ≠ .event .responseNon2xx) :
  (BranchInput.input j).isFinal = false
  := by
  cases j with
  | event now e =>
    cases e with
    | response2xx response => exact absurd rfl h2xx
    | responseNon2xx response => exact absurd rfl hnon2xx
    | _ => rfl
  | _ => rfl

def cancelsReleased (outputs : List Output) : ℕ :=
  (outputLabels outputs).count .sendCancel

variable [StdText]

/-- The place of an INVITE client transaction in the transaction manager: it is removed when it
ends, and by a failure of the transport unless it was given up on.  What finds no transaction does
nothing. -/
def branch : Machine (Option Ict) BranchInput Output where
  step
    | none, _ => (none, [])
    | some t, .input i =>
      let (t, outputs) := t.step i
      (if .terminated ∈ outputLabels outputs then none else some t, outputs)
    | some t, .transportError => (if t.gaveUp then some t else none, [])

theorem branch_step_some {slot : Option Ict} {i : BranchInput} {t' : Ict}
    (h : (branch.step slot i).1 = some t') :
  ∃ t, slot = some t
    ∧ ((∃ j, i = .input j ∧ t' = (t.step j).1) ∨ (i = .transportError ∧ t' = t))
  := by
  cases slot with
  | none => cases h
  | some t =>
  use t, rfl
  cases i with
  | input j =>
    simp only [branch] at h
    split at h
    · cases h
    · exact .inl ⟨j, rfl, (Option.some.inj h).symm⟩
  | transportError =>
    simp only [branch] at h
    split at h
    · exact .inr ⟨rfl, (Option.some.inj h).symm⟩
    · cases h

def branchCancelsLeft : Option Ict → ℕ
  | some t => t.control.cancelsLeft
  | none => 0

theorem cancelsReleased_branch (slot : Option Ict) (i : BranchInput) :
  cancelsReleased (branch.step slot i).2 + branchCancelsLeft (branch.step slot i).1
    ≤ branchCancelsLeft slot
  := by
  cases slot with
  | none => simp [branch, cancelsReleased, outputLabels, branchCancelsLeft]
  | some t =>
  cases i with
  | input j =>
    have hstep := IctControl.count_sendCancel_step t.control j.kind _ (t.outcome_step j)
    simp only [branch, cancelsReleased]
    split
    · exact (Nat.le_add_right _ _).trans hstep
    · exact hstep
  | transportError =>
    simp only [branch, cancelsReleased, outputLabels, filterMap_nil, count_nil]
    split <;> simp [branchCancelsLeft]

/-- What the inputs so far say of the transaction. -/
structure BranchHistory (hist : List BranchInput) (slot : Option Ict) : Prop where
  waiting : ∀ t ∈ slot, t.control.cancel = .waiting → t.control.state = .calling
  provisional : ∀ t ∈ slot, t.control.state = .proceeding → ∃ i ∈ hist, i.isProvisional = true
  pending : ∀ t ∈ slot, t.control.pending = true → ∀ i ∈ hist, i.isFinal = false

theorem branchHistory_step (hist : List BranchInput) (slot : Option Ict) (i : BranchInput)
    (h : BranchHistory hist slot) :
  BranchHistory (hist ++ [i]) (branch.step slot i).1
  := by
  refine ⟨fun t' ht' => ?_, fun t' ht' => ?_, fun t' ht' => ?_⟩ <;>
    obtain ⟨t, rfl, ⟨j, rfl, rfl⟩ | ⟨rfl, rfl⟩⟩ := branch_step_some ht'
  · exact IctControl.waiting_step t.control j.kind (h.waiting t rfl) _ (t.outcome_step j)
  · exact h.waiting t' rfl
  · intro hproceeding
    rcases IctControl.state_of_proceeding t.control j.kind _ (t.outcome_step j) hproceeding with
      hstate | ⟨-, hkind⟩
    · obtain ⟨i, hi, hprov⟩ := h.provisional t rfl hstate
      exact ⟨i, mem_append_left _ hi, hprov⟩
    · exact ⟨.input j, by simp, isProvisional_of_kind hkind⟩
  · intro hproceeding
    obtain ⟨i, hi, hprov⟩ := h.provisional t' rfl hproceeding
    exact ⟨i, mem_append_left _ hi, hprov⟩
  · intro hpending i hi
    obtain ⟨hbefore, h2xx, hnon2xx⟩ :=
      IctControl.pending_of_pending_step t.control j.kind _ (t.outcome_step j) hpending
    rcases mem_append.mp hi with hi | hi
    · exact h.pending t rfl hbefore i hi
    · rw [mem_singleton.mp hi]
      exact isFinal_of_kind h2xx hnon2xx
  · intro hpending i hi
    rcases mem_append.mp hi with hi | hi
    · exact h.pending t' rfl hpending i hi
    · rw [mem_singleton.mp hi]
      rfl

theorem branchHistory_run (requestBytes : Bytes) (transport : Transport) (timers : TimerConfig)
    (inputs : List BranchInput) :
  BranchHistory inputs (branch.run (some (Ict.new requestBytes transport timers).1) inputs)
  := by
  apply Machine.history branchHistory_step
  constructor
  · rintro t ⟨⟩ _
    rfl
  · rintro t ⟨⟩ h
    cases h
  · intro t _ _ i hi
    cases hi

theorem exists_of_cancelsReleased {slot : Option Ict} {i : BranchInput}
    (h : cancelsReleased (branch.step slot i).2 ≠ 0) :
  ∃ t j, slot = some t ∧ i = .input j ∧ t.control.pending = true
    ∧ (t.control.state = .proceeding ∨ j.kind = .event .provisional)
    ∧ j.kind ≠ .event .response2xx ∧ j.kind ≠ .event .responseNon2xx
  := by
  cases slot with
  | none => exact absurd rfl h
  | some t =>
  cases i with
  | input j =>
    have hmem : Label.sendCancel ∈ outputLabels (t.step j).2 :=
      count_pos_iff.mp (Nat.pos_of_ne_zero h)
    exact ⟨t, j, rfl, rfl,
      IctControl.state_of_sendCancel t.control j.kind _ (t.outcome_step j) hmem⟩
  | transportError => exact absurd rfl h

/-- Over every run of an INVITE client transaction, with its transport failing at any time: at
most one CANCEL is released; each is released after, or by, a provisional response and not after a
final one; and a CANCEL is held back only in `Calling`. -/
theorem cancel_released_once (requestBytes : Bytes) (transport : Transport) (timers : TimerConfig)
    (inputs : List BranchInput) :
  let start := some (Ict.new requestBytes transport timers).1
  ((branch.trace start inputs).map fun e => cancelsReleased e.2).sum ≤ 1
    ∧ (∀ i, cancelsReleased (branch.step (branch.run start inputs) i).2 ≠ 0 →
      (∃ j ∈ inputs ++ [i], j.isProvisional = true) ∧ ∀ j ∈ inputs ++ [i], j.isFinal = false)
    ∧ ∀ t cancel, branch.run start inputs = some t → t.cancel = .waiting cancel →
      t.state = .calling
  := by
  intro start
  have hhist := branchHistory_run requestBytes transport timers inputs
  refine ⟨?_, ?_, ?_⟩
  · have htrue : branch.Invariant fun _ => True := fun _ _ _ => trivial
    have hbudget :
        _ + branchCancelsLeft (branch.run start inputs) ≤ branchCancelsLeft start :=
      htrue.budget (fun slot i _ => cancelsReleased_branch slot i) trivial inputs
    exact (Nat.le_add_right _ _).trans hbudget
  · intro i hi
    obtain ⟨t, j, hslot, rfl, hpending, hstate, h2xx, hnon2xx⟩ := exists_of_cancelsReleased hi
    constructor
    · rcases hstate with hstate | hkind
      · obtain ⟨k, hk, hprov⟩ := hhist.provisional t hslot hstate
        exact ⟨k, mem_append_left _ hk, hprov⟩
      · exact ⟨.input j, by simp, isProvisional_of_kind hkind⟩
    · intro k hk
      rcases mem_append.mp hk with hk | hk
      · exact hhist.pending t hslot hpending k hk
      · rw [mem_singleton.mp hk]
        exact isFinal_of_kind h2xx hnon2xx
  · intro t cancel hslot hwaiting
    apply hhist.waiting t hslot
    rw [Ict.control, hwaiting]
    rfl

end Siphon.Transaction
