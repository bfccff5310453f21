import Siphon.Security.AutoBan

/-!
# How long a ban lasts

What a history of signals, successes and unbans comes to for a source, without rows, windows that
saturate, reaping or a kernel: the signals that count, and since when it is banned with its latest
signal.
-/

namespace Siphon.Security

open List Option
open BanEvent (time)
open IndexMap
open AutoBanStore (isBannedAt removeFailures removeBan recordSuccess pruneAt)

/-! ### The standing of a source -/

/-- The signals of a source that count, each with its time and weight, and the time it was banned
with that of its latest signal. -/
structure Standing where
  counted : List (ℕ × ℕ)
  ban : Option (ℕ × ℕ)

/-- When a ban lapses: a duration after the latest signal, but not past the longest ban. -/
def BanPolicy.lapse (policy : BanPolicy) (since latest : ℕ) : ℕ :=
  min (latest + policy.banDuration) (since + policy.maxBanDuration)

namespace Standing

variable (policy : BanPolicy) (now : ℕ) (standing : Standing)

def none : Standing :=
  ⟨[], Option.none⟩

def inForce : Bool :=
  standing.ban.any fun ban => now < policy.lapse ban.1 ban.2

/-- The signals that still count, those of a window that has elapsed not. -/
def window : List (ℕ × ℕ) :=
  if standing.counted.head?.any fun first => policy.window < now - first.1 then []
  else standing.counted

/-- What the signals that still count weigh together. -/
def weight : ℕ :=
  ((standing.window policy now).map Prod.snd).sum

/-- A signal of some weight: it keeps up a ban in force, and otherwise counts. -/
def signal (weight : ℕ) : Standing :=
  if standing.inForce policy now then
    { standing with ban := standing.ban.map fun ban => (ban.1, now) }
  else if policy.threshold ≤ standing.weight policy now + weight then
    ⟨[], some (now, now)⟩
  else
    ⟨standing.window policy now ++ [(now, weight)], Option.none⟩

/-- What an event comes to for a source.  A signal without weight is not one. -/
def after (source : IpAddr) (standing : Standing) : BanEvent → Standing
  | .signal other weight now =>
    if other = source ∧ weight ≠ 0 then standing.signal policy now weight else standing
  | .success other => if other = source then { standing with counted := [] } else standing
  | .unban other => if other = source then none else standing
  | .prune _ | .check _ _ => standing

def ofHistory (history : List BanEvent) (source : IpAddr) : Standing :=
  history.foldl (after policy source) none

end Standing

open Standing (ofHistory)

/-- The time of the latest event of a history that has one. -/
def clock (history : List BanEvent) : ℕ :=
  (history.filterMap time).getLast?.getD 0

def Ordered (history : List BanEvent) : Prop :=
  (history.filterMap time).Pairwise (· ≤ ·)

/-! ### The kernel's expiry -/

/-- When the kernel's element of a ban expires: after the time that was left of the ban at its
latest signal, in whole milliseconds. -/
def BanPolicy.kernelExpiry (policy : BanPolicy) (since latest : ℕ) : ℕ :=
  latest + max 1 ((policy.lapse since latest - latest) / nanosPerMilli) * nanosPerMilli

namespace BanPolicy

variable {policy : BanPolicy} {since latest now : ℕ}

theorem lapse_self (policy : BanPolicy) (now : ℕ) :
  policy.lapse now now = now + policy.banDuration
  := by
  have := policy.banDuration_le
  rw [lapse]
  omega

theorem lapse_mono (h : latest ≤ now) :
  policy.lapse since latest ≤ policy.lapse since now
  := by
  simp only [lapse]
  omega

theorem lt_lapse_signal (h : now < policy.lapse since latest) :
  now < policy.lapse since now
  := by
  have := policy.banDuration_pos
  simp only [lapse] at h ⊢
  omega

theorem kernelExpiry_near (h : latest < policy.lapse since latest) :
  policy.kernelExpiry since latest < policy.lapse since latest + nanosPerMilli ∧
    policy.lapse since latest < policy.kernelExpiry since latest + nanosPerMilli
  := by
  rw [kernelExpiry]
  generalize policy.lapse since latest = lapse at h ⊢
  have hdiv := Nat.div_add_mod (lapse - latest) nanosPerMilli
  have hmod := Nat.mod_lt (lapse - latest) (show 0 < nanosPerMilli by decide)
  simp only [nanosPerMilli] at hdiv hmod ⊢
  omega

theorem kernelExpiry_eq (h : latest + policy.banDuration ≤ since + policy.maxBanDuration) :
  policy.kernelExpiry since latest = policy.lapse since latest
  := by
  have hpos := policy.banDuration_pos
  obtain ⟨count, hcount⟩ := policy.banDuration_whole
  rw [kernelExpiry, lapse, Nat.min_eq_left h, Nat.add_sub_cancel_left]
  simp only [nanosPerMilli] at hcount ⊢
  omega

theorem apply_firewallBan (kernel : KernelSet) (source : IpAddr) :
  KernelSet.apply latest kernel (firewallBan source (policy.lapse since latest - latest))
    = kernel.insert source (policy.kernelExpiry since latest)
  := by
  have hlt := policy.maxBanDuration_lt
  have hle := policy.banDuration_le
  have hleft : policy.lapse since latest - latest ≤ policy.banDuration := by
    rw [lapse]
    omega
  have hmillis : (policy.lapse since latest - latest) / nanosPerMilli ≤ 2 ^ 64 - 1 := by
    simp only [nanosPerMilli, nanosPerSecond] at hlt ⊢
    omega
  rw [firewallBan, Nat.min_eq_left hmillis]
  rfl

end BanPolicy

/-! ### Agreement -/

/-- The row of failures says what the counted signals do, or they have elapsed. -/
def WindowAgrees (policy : BanPolicy) (now : ℕ) (counted : List (ℕ × ℕ)) :
    Option FailureWindow → Prop
  | some row => ∃ first rest, counted = first :: rest ∧ row.windowStart = first.1 ∧
      row.count = min (counted.map Prod.snd).sum (2 ^ 32 - 1)
  | none => ∀ first ∈ counted.head?, policy.window < now - first.1

/-- The rows of a ban, in the store and in the kernel, say what the standing does, or it has
lapsed. -/
def BanAgrees (policy : BanPolicy) (now : ℕ) (ban : Option (ℕ × ℕ)) (kernel : Option ℕ) :
    Option BanEntry → Prop
  | some row => ∃ since latest, ban = some (since, latest) ∧ latest ≤ now ∧
      latest < policy.lapse since latest ∧
      row = ⟨policy.lapse since latest, since + policy.maxBanDuration⟩ ∧
      kernel = some (policy.kernelExpiry since latest)
  | none => (∀ since latest, ban = some (since, latest) → policy.lapse since latest ≤ now) ∧
      ∀ expiry, kernel = some expiry → expiry < now + nanosPerMilli

/-- The store and the kernel say of a source what its standing does. -/
structure Agrees (policy : BanPolicy) (now : ℕ) (standing : Standing) (source : IpAddr)
    (state : AutoBanStore × KernelSet) : Prop where
  window : WindowAgrees policy now standing.counted (state.1.failures.get? source)
  ban : BanAgrees policy now standing.ban (state.2.get? source) (state.1.bans.get? source)

variable {policy : BanPolicy} {trusted : IpAddr → Bool} {earlier now weight : ℕ}
    {standing : Standing} {source : IpAddr} {state : AutoBanStore × KernelSet}

variable {counted : List (ℕ × ℕ)}

theorem WindowAgrees.mono {row : Option FailureWindow} (h : WindowAgrees policy earlier counted row)
    (hle : earlier ≤ now) :
  WindowAgrees policy now counted row
  := by
  cases row with
  | some row => exact h
  | none =>
  intro first hfirst
  have := h first hfirst
  omega

variable {ban : Option (ℕ × ℕ)} {kernel : Option ℕ}

theorem BanAgrees.mono {row : Option BanEntry} (h : BanAgrees policy earlier ban kernel row)
    (hle : earlier ≤ now) :
  BanAgrees policy now ban kernel row
  := by
  cases row with
  | some row =>
    obtain ⟨since, latest, hban, hlatest, hrest⟩ := h
    exact ⟨since, latest, hban, hlatest.trans hle, hrest⟩
  | none =>
    refine ⟨fun since latest hban => (h.1 since latest hban).trans hle, fun expiry hkernel => ?_⟩
    have := h.2 expiry hkernel
    omega

theorem BanAgrees.reap {row : BanEntry} (h : BanAgrees policy earlier ban kernel (some row))
    (hlapsed : row.expiry ≤ now) :
  BanAgrees policy now ban kernel none
  := by
  obtain ⟨since, latest, rfl, -, hlt, rfl, rfl⟩ := h
  constructor
  · rintro since latest ⟨⟩
    exact hlapsed
  rintro expiry ⟨⟩
  have := (BanPolicy.kernelExpiry_near hlt).1
  dsimp only at hlapsed
  omega

theorem BanAgrees.lapsed {row : Option BanEntry} (h : BanAgrees policy now ban kernel row)
    (hnot : ¬ ∃ entry, row = some entry ∧ now < entry.expiry) :
  BanAgrees policy now ban kernel none
  := by
  cases row with
  | none => exact h
  | some entry =>
  refine h.reap (Nat.le_of_not_lt fun hlt => ?_)
  exact hnot ⟨entry, rfl, hlt⟩

theorem WindowAgrees.reap {row : FailureWindow} (h : WindowAgrees policy earlier counted (some row))
    (helapsed : policy.window < now - row.windowStart) :
  WindowAgrees policy now counted none
  := by
  obtain ⟨first, rest, rfl, hstart, -⟩ := h
  rintro first ⟨⟩
  rwa [← hstart]

theorem BanAgrees.inForce_iff {row : Option BanEntry}
    (h : BanAgrees policy now standing.ban kernel row) :
  standing.inForce policy now = true ↔ ∃ entry, row = some entry ∧ now < entry.expiry
  := by
  rw [Standing.inForce]
  cases row with
  | some row =>
    obtain ⟨since, latest, hban, -, -, rfl, -⟩ := h
    simp [hban]
  | none =>
    constructor
    · intro hforce
      obtain ⟨⟨since, latest⟩, hban, hlt⟩ := (any_eq_true _ _).mp hforce
      have hlapsed := h.1 since latest hban
      have hlt : now < policy.lapse since latest := of_decide_eq_true hlt
      omega
    · rintro ⟨entry, ⟨⟩, -⟩

theorem WindowAgrees.window_eq_nil (h : WindowAgrees policy now standing.counted none) :
  standing.window policy now = []
  := by
  rw [Standing.window]
  cases hcounted : standing.counted with
  | nil => simp
  | cons first rest =>
  have := h first (by rw [hcounted]; rfl)
  simp [this]

theorem WindowAgrees.count {row : Option FailureWindow}
    (h : WindowAgrees policy now standing.counted row) (weight : ℕ) :
  WindowAgrees policy now (standing.window policy now ++ [(now, weight)])
    (some (countedWindow policy now weight row))
  := by
  cases row with
  | none =>
    rw [h.window_eq_nil]
    exact ⟨(now, weight), [], rfl, by simp [countedWindow], by simp [countedWindow]⟩
  | some row =>
    obtain ⟨first, rest, hcounted, hstart, hcount⟩ := h
    have hwindow : standing.window policy now =
        if policy.window < now - row.windowStart then [] else first :: rest := by
      simp [Standing.window, hcounted, hstart]
    rw [hwindow]
    by_cases helapsed : policy.window < now - row.windowStart
    · rw [if_pos helapsed]
      exact ⟨(now, weight), [], rfl, by simp [countedWindow, helapsed],
        by simp [countedWindow, helapsed]⟩
    rw [if_neg helapsed]
    refine ⟨first, rest ++ [(now, weight)], rfl, ?_, ?_⟩
    · simp only [countedWindow, getD_some, if_neg helapsed]
      exact hstart
    · simp only [countedWindow, getD_some, if_neg helapsed, hcount, hcounted, map_append,
        sum_append_nat, map_cons, map_nil, sum_cons, sum_nil]
      omega

theorem WindowAgrees.threshold_le_iff {row : FailureWindow}
    (h : WindowAgrees policy now counted (some row)) :
  policy.threshold ≤ row.count ↔ policy.threshold ≤ (counted.map Prod.snd).sum
  := by
  obtain ⟨-, -, -, -, hcount⟩ := h
  have := policy.threshold_lt
  omega

theorem extend_eq {since latest : ℕ} (h : latest ≤ now) :
  BanEntry.extend policy now ⟨policy.lapse since latest, since + policy.maxBanDuration⟩
    = ⟨policy.lapse since now, since + policy.maxBanDuration⟩
  := by
  have hmono := @BanPolicy.lapse_mono policy since latest now h
  have heq : min (now + policy.banDuration) (since + policy.maxBanDuration)
      = policy.lapse since now := rfl
  simp only [BanEntry.extend, heq]
  split
  · rfl
  · congr 1
    omega

/-! ### One event -/

theorem countAndBan_cases (policy : BanPolicy) (store : AutoBanStore) (source : IpAddr)
    (now weight : ℕ) :
  let row := countedWindow policy now weight (store.failures.get? source)
  (policy.threshold ≤ row.count ∧ store.countAndBan policy source now weight =
      (⟨(store.failures.insert source row).shiftRemove source,
          store.bans.insert source ⟨now + policy.banDuration, now + policy.maxBanDuration⟩⟩,
        [firewallBan source policy.banDuration], true))
    ∨ (¬ policy.threshold ≤ row.count ∧ store.countAndBan policy source now weight =
      (⟨store.failures.insert source row, store.bans⟩, [], false))
  := by
  intro row
  rw [AutoBanStore.countAndBan]
  by_cases hreached : policy.threshold ≤ row.count
  · refine .inl ⟨hreached, ?_⟩
    have hcount : store.countFailure policy source now weight =
        (⟨store.failures.insert source row, store.bans⟩, true) := by
      rw [AutoBanStore.countFailure, decide_eq_true hreached]
    rw [hcount]
    rfl
  · refine .inr ⟨hreached, ?_⟩
    have hcount : store.countFailure policy source now weight =
        (⟨store.failures.insert source row, store.bans⟩, false) := by
      rw [AutoBanStore.countFailure, decide_eq_false hreached]
    rw [hcount]

theorem record_cases (policy : BanPolicy) (store : AutoBanStore) (now : ℕ)
    (htrusted : trusted source = false) (hweight : weight ≠ 0) :
  let row := countedWindow policy now weight (store.failures.get? source)
  let result := store.recordFailureWeightedAt policy source now trusted weight
  (∃ entry, store.bans.get? source = some entry ∧ now < entry.expiry ∧ result =
      ({ store with bans := store.bans.insert source (entry.extend policy now) },
        [firewallBan source ((entry.extend policy now).expiry - now)], false))
    ∨ (¬ ∃ entry, store.bans.get? source = some entry ∧ now < entry.expiry) ∧
      ∃ bans, (∀ other, bans.get? other =
          if other = source then none else store.bans.get? other) ∧
        ((policy.threshold ≤ row.count ∧ result =
            (⟨(store.failures.insert source row).shiftRemove source,
                bans.insert source ⟨now + policy.banDuration, now + policy.maxBanDuration⟩⟩,
              [firewallBan source policy.banDuration], true))
          ∨ (¬ policy.threshold ≤ row.count ∧ result =
            (⟨store.failures.insert source row, bans⟩, [], false)))
  := by
  intro row result
  have hresult : result = store.recordFailureWeightedAt policy source now trusted weight := rfl
  rw [AutoBanStore.recordFailureWeightedAt, if_neg hweight, if_neg (by simp [htrusted]),
    AutoBanStore.extendBanAt, if_neg (by simp [htrusted]), AutoBanStore.extendEntry] at hresult
  cases hrow : store.bans.get? source with
  | none =>
    simp only [hrow] at hresult
    refine .inr ⟨by simp, store.bans, fun other => ?_, ?_⟩
    · split
      · rename_i heq
        rw [heq, hrow]
      · rfl
    · rw [hresult]
      exact countAndBan_cases policy store source now weight
  | some entry =>
    by_cases hlt : now < entry.expiry
    · simp only [hrow, if_pos hlt] at hresult
      exact .inl ⟨entry, rfl, hlt, hresult⟩
    simp only [hrow, if_neg hlt] at hresult
    refine .inr ⟨?_, store.bans.shiftRemove source,
      get?_shiftRemove store.bans source, ?_⟩
    · rintro ⟨entry, ⟨⟩, hlt'⟩
      exact hlt hlt'
    · rw [hresult]
      exact countAndBan_cases policy (store.removeBan source) source now weight

def rows (state : AutoBanStore × KernelSet) (source : IpAddr) :
    Option FailureWindow × Option BanEntry × Option ℕ :=
  (state.1.failures.get? source, state.1.bans.get? source, state.2.get? source)

theorem step_signal_of_not {other : IpAddr} (h : trusted other = true ∨ weight = 0) :
  (banMachine policy trusted).step state (.signal other weight now) = (state, [.newlyBanned false])
  := by
  have hresult : state.1.recordFailureWeightedAt policy other now trusted weight =
      (state.1, [], false) := by
    rw [AutoBanStore.recordFailureWeightedAt]
    split
    · rfl
    · rename_i hweight
      rw [if_pos (h.resolve_right hweight)]
  simp only [banMachine, hresult]
  rfl

variable {event : BanEvent}

theorem rows_step_of_ne {other : IpAddr} (hevent : event.source = some other)
    (hne : source ≠ other) :
  rows ((banMachine policy trusted).step state event).1 source = rows state source
  := by
  fun_cases BanEvent.source event <;> cases hevent
  · rename_i weight now
    by_cases hnot : trusted other = true ∨ weight = 0
    · rw [step_signal_of_not hnot]
    rw [not_or, Bool.not_eq_true] at hnot
    obtain ⟨entry, -, -, hresult⟩ | ⟨-, bans, hbans, ⟨-, hresult⟩ | ⟨-, hresult⟩⟩ :=
      record_cases policy state.1 now hnot.1 hnot.2
    · simp [rows, banMachine, hresult, KernelSet.apply, firewallBan, get?_insert, hne]
    · simp [rows, banMachine, hresult, KernelSet.apply, firewallBan, get?_insert,
        get?_shiftRemove, hbans, hne]
    · simp [rows, banMachine, hresult, get?_insert, hbans, hne]
  · simp [rows, banMachine, recordSuccess, removeFailures,
      get?_shiftRemove, hne]
  · simp only [rows, banMachine, AutoBanStore.unban, removeFailures,
      removeBan, get?_shiftRemove, if_neg hne]
    split
    · simp [KernelSet.apply, get?_shiftRemove, hne]
    · rfl
  · simp only [rows, banMachine, isBannedAt]
    split
    · split
      · rfl
      · split
        · rfl
        · simp [removeBan, get?_shiftRemove, hne]
    · rfl

theorem Agrees.mono (h : Agrees policy earlier standing source state) (hle : earlier ≤ now) :
  Agrees policy now standing source state
  := ⟨h.window.mono hle, h.ban.mono hle⟩

section

variable (h : Agrees policy now standing source state)

include h

theorem Agrees.of_rows {state' : AutoBanStore × KernelSet}
    (hrows : rows state' source = rows state source) :
  Agrees policy now standing source state'
  := by
  simp only [rows, Prod.mk.injEq] at hrows
  obtain ⟨hfailures, hbans, hkernel⟩ := hrows
  constructor
  · rw [hfailures]
    exact h.window
  · rw [hbans, hkernel]
    exact h.ban

/-- A signal that is weighed is answered as the standing says, and leaves what it comes to. -/
theorem Agrees.signal (htrusted : trusted source = false) (hweight : weight ≠ 0) :
  Agrees policy now (standing.signal policy now weight) source
      ((banMachine policy trusted).step state (.signal source weight now)).1 ∧
    ((banMachine policy trusted).step state (.signal source weight now)).2 =
      [.newlyBanned (decide (standing.inForce policy now = false ∧
        policy.threshold ≤ standing.weight policy now + weight))]
  := by
  have hforce := h.ban.inForce_iff
  have hcount := h.window.count weight
  have hreached : policy.threshold ≤
      (countedWindow policy now weight (state.1.failures.get? source)).count
        ↔ policy.threshold ≤ standing.weight policy now + weight := by
    rw [hcount.threshold_le_iff]
    simp [Standing.weight]
  obtain ⟨entry, hrow, hlt, hresult⟩ | ⟨hnot, bans, hbans, hcounted⟩ :=
    record_cases policy state.1 now htrusted hweight
  · -- a ban in force is kept up
    have hin : standing.inForce policy now = true := hforce.mpr ⟨entry, hrow, hlt⟩
    have hban := h.ban
    rw [hrow] at hban
    obtain ⟨since, latest, hstanding, hlatest, -, rfl, hkernel⟩ := hban
    rw [extend_eq hlatest] at hresult
    have hkept := BanPolicy.lt_lapse_signal hlt
    refine ⟨⟨?_, ?_⟩, ?_⟩
    · simp only [banMachine, hresult, Standing.signal, if_pos hin]
      exact h.window
    · simp only [banMachine, hresult, Standing.signal, if_pos hin, foldl_cons,
        foldl_nil, BanPolicy.apply_firewallBan, get?_insert, if_true]
      exact ⟨since, now, by rw [hstanding]; rfl, le_rfl, hkept, rfl, rfl⟩
    · simp [banMachine, hresult, hin]
  · have hout : standing.inForce policy now = false := by
      rw [Bool.eq_false_iff, ne_eq, hforce]
      exact hnot
    obtain ⟨hge, hresult⟩ | ⟨hlt, hresult⟩ := hcounted
    · -- the threshold is reached
      have hge' := hreached.mp hge
      have hlapse := policy.lapse_self now
      have hleft : policy.banDuration = policy.lapse now now - now := by omega
      have hpos := policy.banDuration_pos
      refine ⟨⟨?_, ?_⟩, ?_⟩
      · simp only [banMachine, hresult, Standing.signal, hout, Bool.false_eq_true, if_false,
          if_pos hge', get?_shiftRemove, if_true]
        simp [WindowAgrees]
      · simp only [banMachine, hresult, Standing.signal, hout, Bool.false_eq_true, if_false,
          if_pos hge', foldl_cons, foldl_nil]
        rw [hleft, BanPolicy.apply_firewallBan, get?_insert, if_pos rfl,
          get?_insert, if_pos rfl, ← hleft, ← hlapse]
        exact ⟨now, now, rfl, le_rfl, by omega, rfl, rfl⟩
      · simp [banMachine, hresult, hout, hge']
    · have hlt' : ¬ policy.threshold ≤ standing.weight policy now + weight := by
        rwa [← hreached]
      refine ⟨⟨?_, ?_⟩, ?_⟩
      · simp only [banMachine, hresult, Standing.signal, hout, Bool.false_eq_true, if_false,
          if_neg hlt', get?_insert, if_true]
        exact hcount
      · simp only [banMachine, hresult, Standing.signal, hout, Bool.false_eq_true, if_false,
          if_neg hlt', hbans, if_true, foldl_nil]
        exact ⟨by simp, (h.ban.lapsed hnot).2⟩
      · simp only [banMachine, hresult, hout, hlt']
        simp

theorem Agrees.success :
  Agrees policy now { standing with counted := [] } source
    ((banMachine policy trusted).step state (.success source)).1
  := by
  constructor
  · simp [banMachine, recordSuccess, removeFailures,
      get?_shiftRemove, WindowAgrees]
  · exact h.ban

theorem Agrees.unban :
  Agrees policy now .none source ((banMachine policy trusted).step state (.unban source)).1
  := by
  constructor
  · simp [banMachine, AutoBanStore.unban, removeFailures, get?_shiftRemove,
      WindowAgrees, Standing.none]
  have hban := h.ban
  simp only [banMachine, AutoBanStore.unban, removeFailures,
    removeBan, get?_shiftRemove, if_true]
  cases hrow : state.1.bans.get? source with
  | some entry =>
    simp [BanAgrees, Standing.none, KernelSet.apply, get?_shiftRemove]
  | none =>
    rw [hrow] at hban
    exact ⟨by simp [Standing.none], hban.2⟩

theorem Agrees.prune :
  Agrees policy now standing source ((banMachine policy trusted).step state (.prune now)).1
  := by
  constructor
  · have hwindow := h.window
    simp only [banMachine, pruneAt, get?_retain]
    cases hrow : state.1.failures.get? source with
    | none =>
      rw [hrow] at hwindow
      exact hwindow
    | some row =>
      rw [hrow] at hwindow
      by_cases hkept : now - row.windowStart ≤ policy.window
      · rw [filter_some_pos (by simpa using hkept)]
        exact hwindow
      · rw [filter_some_neg (by simpa using hkept)]
        exact hwindow.reap (Nat.lt_of_not_le hkept)
  · have hban := h.ban
    simp only [banMachine, pruneAt, get?_retain]
    cases hrow : state.1.bans.get? source with
    | none =>
      rw [hrow] at hban
      exact hban
    | some row =>
      rw [hrow] at hban
      by_cases hkept : now < row.expiry
      · rw [filter_some_pos (by simpa using hkept)]
        exact hban
      · rw [filter_some_neg (by simpa using hkept)]
        exact hban.reap (Nat.le_of_not_lt hkept)

theorem Agrees.check (htrusted : trusted source = false) :
  Agrees policy now standing source
      ((banMachine policy trusted).step state (.check source now)).1 ∧
    ((banMachine policy trusted).step state (.check source now)).2 =
      [.banned (standing.inForce policy now)]
  := by
  have hforce := h.ban.inForce_iff
  cases hrow : state.1.bans.get? source with
  | none =>
    have hout : standing.inForce policy now = false := by
      rw [Bool.eq_false_iff, ne_eq, hforce, hrow]
      simp
    refine ⟨h.of_rows ?_, ?_⟩
    · simp [rows, banMachine, isBannedAt, hrow]
    · simp [banMachine, isBannedAt, hrow, hout]
  | some entry =>
    by_cases hlt : now < entry.expiry
    · have hin : standing.inForce policy now = true := hforce.mpr ⟨entry, hrow, hlt⟩
      refine ⟨h.of_rows ?_, ?_⟩
      · simp [rows, banMachine, isBannedAt, hrow, htrusted, hlt]
      · simp [banMachine, isBannedAt, hrow, htrusted, hlt, hin]
    have hout : standing.inForce policy now = false := by
      rw [Bool.eq_false_iff, ne_eq, hforce, hrow]
      rintro ⟨entry, ⟨⟩, hlt'⟩
      exact hlt hlt'
    have hban := h.ban
    rw [hrow] at hban
    refine ⟨⟨?_, ?_⟩, ?_⟩
    · simpa [banMachine, isBannedAt, hrow, htrusted, hlt,
        removeBan] using h.window
    · simpa [banMachine, isBannedAt, hrow, htrusted, hlt, removeBan,
        get?_shiftRemove] using hban.reap (Nat.le_of_not_lt hlt)
    · simp [banMachine, isBannedAt, hrow, htrusted, hlt, hout]

end

/-! ### Every history -/

theorem clock_append (history : List BanEvent) (event : BanEvent) :
  clock (history ++ [event]) = event.time.getD (clock history)
  := by
  rw [clock, clock, filterMap_append]
  cases h : event.time with
  | none | some => simp [h]

variable {history : List BanEvent}

theorem clock_le (h : Ordered (history ++ [event])) :
  clock history ≤ clock (history ++ [event])
  := by
  rw [clock_append]
  cases htime : event.time with
  | none => exact le_rfl
  | some now =>
  rw [Ordered, filterMap_append, pairwise_append] at h
  rw [clock, getD_some]
  cases hlast : (history.filterMap time).getLast? with
  | none => exact Nat.zero_le _
  | some last =>
  exact h.2.2 last (mem_of_getLast? hlast) now (by simp [htime])

/-- The store and the kernel say of every source what its history comes to, and nothing of a trusted
one. -/
structure AllAgree (policy : BanPolicy) (trusted : IpAddr → Bool) (history : List BanEvent)
    (state : AutoBanStore × KernelSet) : Prop where
  clear : ∀ source, trusted source = true → rows state source = (none, none, none)
  agrees : ∀ source, trusted source = false →
    Agrees policy (clock history) (ofHistory policy history source) source state

theorem clear_step (event : BanEvent) (htrusted : trusted source = true)
    (h : rows state source = (none, none, none)) :
  rows ((banMachine policy trusted).step state event).1 source = (none, none, none)
  := by
  have hrows := h
  simp only [rows, Prod.mk.injEq] at hrows
  obtain ⟨hfailures, hbans, hkernel⟩ := hrows
  cases event with
  | signal other weight now =>
    by_cases heq : source = other
    · rw [step_signal_of_not (.inl (heq ▸ htrusted))]
      exact h
    · rw [rows_step_of_ne rfl heq, h]
  | prune now =>
    simp [rows, banMachine, pruneAt, get?_retain, hfailures, hbans, hkernel]
  | success other | unban other | check other now =>
    by_cases heq : source = other
    · subst heq
      simp [rows, banMachine, recordSuccess, AutoBanStore.unban, isBannedAt, removeFailures,
        removeBan, get?_shiftRemove, hfailures, hbans, hkernel]
    · rw [rows_step_of_ne rfl heq, h]

/-- An event in order keeps all sources agreed. -/
theorem allAgree_step (h : AllAgree policy trusted history state)
    (hordered : Ordered (history ++ [event])) :
  AllAgree policy trusted (history ++ [event]) ((banMachine policy trusted).step state event).1
  := by
  refine ⟨fun source htrusted => clear_step event htrusted (h.clear source htrusted), ?_⟩
  intro source htrusted
  have hagrees := (h.agrees source htrusted).mono (clock_le hordered)
  rw [ofHistory, foldl_append, ← ofHistory, foldl_cons, foldl_nil]
  generalize ofHistory policy history source = standing at hagrees ⊢
  have hclock := clock_append history event
  cases event with
  | signal other weight now =>
    rw [hclock] at hagrees ⊢
    rw [Standing.after]
    split
    · rename_i hevent
      obtain ⟨rfl, hweight⟩ := hevent
      exact (hagrees.signal htrusted hweight).1
    rename_i hnot
    by_cases heq : source = other
    · have hweight : weight = 0 := by
        by_contra hne
        exact hnot ⟨heq.symm, hne⟩
      rw [step_signal_of_not (.inr hweight)]
      exact hagrees
    · exact hagrees.of_rows (rows_step_of_ne rfl heq)
  | success other =>
    rw [Standing.after]
    split
    · rename_i heq
      subst heq
      exact hagrees.success
    · rename_i hne
      exact hagrees.of_rows (rows_step_of_ne rfl (Ne.symm hne))
  | unban other =>
    rw [Standing.after]
    split
    · rename_i heq
      subst heq
      exact hagrees.unban
    · rename_i hne
      exact hagrees.of_rows (rows_step_of_ne rfl (Ne.symm hne))
  | prune now =>
    rw [hclock] at hagrees ⊢
    exact hagrees.prune
  | check other now =>
    rw [hclock] at hagrees ⊢
    by_cases heq : source = other
    · subst heq
      exact (hagrees.check htrusted).1
    · exact hagrees.of_rows (rows_step_of_ne rfl heq)

/-- So they are after any run in order. -/
theorem allAgree_run (policy : BanPolicy) (trusted : IpAddr → Bool) (hordered : Ordered history) :
  AllAgree policy trusted history ((banMachine policy trusted).run (.new, .empty) history)
  := by
  refine @Machine.history _ _ _ (banMachine policy trusted)
    (fun history state => Ordered history → AllAgree policy trusted history state) ?_
    (.new, .empty) ?_ history hordered
  · intro history state event h hordered
    refine allAgree_step (h ?_) hordered
    rw [Ordered, filterMap_append, pairwise_append] at hordered
    exact hordered.1
  · intro _
    refine ⟨fun _ _ => rfl, fun source _ => ⟨?_, ?_⟩⟩
    · exact fun first hfirst => absurd hfirst (by simp [ofHistory, Standing.none])
    · exact ⟨by simp [ofHistory, Standing.none], by simp⟩

theorem Standing.lapse_le_after {since latest since' latest' : ℕ}
    (hban : standing.ban = some (since, latest))
    (hafter : (standing.after policy source event).ban = some (since', latest'))
    (htime : ∀ now ∈ event.time, latest ≤ now) :
  policy.lapse since latest ≤ policy.lapse since' latest'
  := by
  have hsame : standing.ban = some (since', latest') →
      policy.lapse since latest ≤ policy.lapse since' latest' := by
    intro h
    rw [hban] at h
    cases h
    exact le_rfl
  cases event with
  | signal other weight now =>
    rw [after] at hafter
    split at hafter
    · rw [signal] at hafter
      split at hafter
      · rw [hban, map_some, Option.some.injEq, Prod.mk.injEq] at hafter
        rw [← hafter.1, ← hafter.2]
        exact BanPolicy.lapse_mono (htime now rfl)
      rename_i hout
      split at hafter
      · rw [Option.some.injEq, Prod.mk.injEq] at hafter
        have hlapsed : policy.lapse since latest ≤ now := by
          simpa [inForce, hban] using hout
        rw [← hafter.1, ← hafter.2, policy.lapse_self]
        omega
      · cases hafter
    · exact hsame hafter
  | success other =>
    rw [after] at hafter
    split at hafter <;> exact hsame hafter
  | unban other =>
    rw [after] at hafter
    split at hafter
    · cases hafter
    · exact hsame hafter
  | prune | check => exact hsame hafter

theorem AllAgree.row (h : AllAgree policy trusted history state) {row : BanEntry}
    (hrow : state.1.bans.get? source = some row) :
  ∃ since latest, (ofHistory policy history source).ban = some (since, latest) ∧
    latest ≤ clock history ∧ latest < policy.lapse since latest ∧
    row.expiry = policy.lapse since latest ∧
    state.2.get? source = some (policy.kernelExpiry since latest)
  := by
  cases htrusted : trusted source with
  | true =>
    have hclear := h.clear source htrusted
    simp only [rows, Prod.mk.injEq] at hclear
    rw [hclear.2.1] at hrow
    cases hrow
  | false =>
    have hban := (h.agrees source htrusted).ban
    rw [hrow] at hban
    obtain ⟨since, latest, hstanding, hlatest, hlt, rfl, hkernel⟩ := hban
    exact ⟨since, latest, hstanding, hlatest, hlt, rfl, hkernel⟩

/-- Events in the order of time. -/
structure Timeline where
  events : List BanEvent
  ordered : Ordered events

theorem Ordered.of_isPrefix {before : List BanEvent} (h : Ordered history)
    (hpre : before <+: history) :
  Ordered before
  := h.sublist (hpre.sublist.filterMap _)

/-- Along every history in the order of time: a signal bans its source exactly when it is not
trusted, not banned already, and the weights that count reach the threshold; a source is found
banned from then on for a duration after its latest signal, but not past the longest ban; no expiry
moves back; nothing is kept of a trusted source; and the kernel's element of a ban expires with it,
to the millisecond if the ban has come to the longest one. -/
theorem ban_lifetime (policy : BanPolicy) (trusted : IpAddr → Bool) (timeline : Timeline) :
  let state := (banMachine policy trusted).run (.new, .empty)
  let answers := fun before event => ((banMachine policy trusted).step (state before) event).2
  let standing := ofHistory policy
  (∀ before source weight now, before ++ [.signal source weight now] <+: timeline.events →
    answers before (.signal source weight now) = [.newlyBanned (decide (trusted source = false ∧
      weight ≠ 0 ∧ (standing before source).inForce policy now = false ∧
      policy.threshold ≤ (standing before source).weight policy now + weight))]) ∧
  (∀ before source now, before ++ [.check source now] <+: timeline.events →
    answers before (.check source now) = [.banned (decide (trusted source = false ∧
      (standing before source).inForce policy now = true))]) ∧
  (∀ before event, before ++ [event] <+: timeline.events → ∀ source row row',
    (state before).1.bans.get? source = some row →
    (state (before ++ [event])).1.bans.get? source = some row' → row.expiry ≤ row'.expiry) ∧
  (∀ before, before <+: timeline.events → ∀ source,
    (trusted source = true → rows (state before) source = (none, none, none)) ∧
    (∀ row, (state before).1.bans.get? source = some row →
      ∃ since latest, (standing before source).ban = some (since, latest) ∧
        row.expiry = policy.lapse since latest ∧
        ∃ expiry, (state before).2.get? source = some expiry ∧
          expiry < row.expiry + nanosPerMilli ∧ row.expiry < expiry + nanosPerMilli ∧
          (latest + policy.banDuration ≤ since + policy.maxBanDuration →
            expiry = row.expiry)) ∧
    ((state before).1.bans.get? source = none → ∀ expiry,
      (state before).2.get? source = some expiry → expiry < clock before + nanosPerMilli))
  := by
  intro state answers standing
  have hall : ∀ before, before <+: timeline.events →
      AllAgree policy trusted before (state before) :=
    fun before hpre => allAgree_run policy trusted (timeline.ordered.of_isPrefix hpre)
  refine ⟨?_, ?_, ?_, ?_⟩
  · intro before source weight now hpre
    have hordered := timeline.ordered.of_isPrefix hpre
    by_cases hnot : trusted source = true ∨ weight = 0
    · simp only [answers]
      rw [step_signal_of_not hnot]
      obtain htrusted | hweight := hnot
      · simp [htrusted]
      · simp [hweight]
    · rw [not_or, Bool.not_eq_true] at hnot
      have hle := clock_le hordered
      rw [clock_append] at hle
      have hagrees := ((hall before ((prefix_append _ _).trans hpre)).agrees source
        hnot.1).mono (show _ ≤ now from hle)
      simp only [answers]
      rw [(hagrees.signal hnot.1 hnot.2).2]
      simp [hnot.1, hnot.2, standing]
  · intro before source now hpre
    have hordered := timeline.ordered.of_isPrefix hpre
    have hbefore := hall before ((prefix_append _ _).trans hpre)
    cases htrusted : trusted source with
    | true =>
      have hclear := hbefore.clear source htrusted
      simp only [rows, Prod.mk.injEq] at hclear
      simp [answers, banMachine, isBannedAt, hclear.2.1]
    | false =>
      have hle := clock_le hordered
      rw [clock_append] at hle
      have hagrees := (hbefore.agrees source htrusted).mono (show _ ≤ now from hle)
      simp only [answers]
      rw [(hagrees.check htrusted).2]
      simp [standing]
  · intro before event hpre source row row' hrow hrow'
    have hordered := timeline.ordered.of_isPrefix hpre
    obtain ⟨since, latest, hban, hlatest, -, hexpiry, -⟩ :=
      (hall before ((prefix_append _ _).trans hpre)).row hrow
    obtain ⟨since', latest', hban', -, -, hexpiry', -⟩ := (hall _ hpre).row hrow'
    rw [ofHistory, foldl_append, ← ofHistory] at hban'
    rw [hexpiry, hexpiry']
    refine Standing.lapse_le_after hban hban' fun now htime => ?_
    have hle := clock_le hordered
    rw [clock_append, htime] at hle
    exact hlatest.trans hle
  · intro before hpre source
    refine ⟨(hall before hpre).clear source, ?_, ?_⟩
    · intro row hrow
      obtain ⟨since, latest, hban, -, hlt, hexpiry, hkernel⟩ := (hall before hpre).row hrow
      have hnear := BanPolicy.kernelExpiry_near hlt
      refine ⟨since, latest, hban, hexpiry, _, hkernel, ?_⟩
      rw [hexpiry]
      exact ⟨hnear.1, hnear.2, BanPolicy.kernelExpiry_eq⟩
    intro hnone expiry hkernel
    cases htrusted : trusted source with
    | true =>
      have hclear := (hall before hpre).clear source htrusted
      simp only [rows, Prod.mk.injEq] at hclear
      rw [hclear.2.2] at hkernel
      cases hkernel
    | false =>
      have hban := ((hall before hpre).agrees source htrusted).ban
      rw [hnone] at hban
      exact hban.2 expiry hkernel

/-- A ban of one second at most, kept up half a millisecond after it was raised: what is left of it
is not a whole number of milliseconds, and the kernel's element expires half a millisecond before
it. -/
theorem capped_expires_early :
  let events : List BanEvent :=
    [.signal (.v4 0xC0000201#32) 1 0, .signal (.v4 0xC0000201#32) 1 500000]
  let state := (banMachine (.new 1 1 1 1) fun _ => false).run (.new, .empty) events
  (events.filterMap time).Pairwise (· ≤ ·) ∧
    state.1.bans.get? (.v4 0xC0000201#32) = some ⟨1000000000, 1000000000⟩ ∧
    state.2.get? (.v4 0xC0000201#32) = some 999500000
  := by
  decide +kernel

end Siphon.Security
