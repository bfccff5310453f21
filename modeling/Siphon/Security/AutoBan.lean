import Siphon.Library.IndexMap
import Siphon.Library.Run
import Siphon.Transport.Address

/-!
# The auto-ban store

Signals of abuse are weighed per source within a window, and a source that reaches the threshold is
banned.  Every further signal of a banned source pushes the expiry of its ban out, up to a deadline
that is set when the ban is raised.  Each ban is mirrored into a set of the kernel, whose elements
expire by themselves.  Times are in nanoseconds.
-/

namespace Siphon.Security

def nanosPerSecond : ℕ :=
  1000000000

def nanosPerMilli : ℕ :=
  1000000

/-- A `failed_auth_ban` policy, with what its constructor makes sure of. -/
structure BanPolicy where
  threshold : ℕ
  window : ℕ
  banDuration : ℕ
  maxBanDuration : ℕ
  threshold_pos : 0 < threshold
  threshold_lt : threshold < 2 ^ 32
  banDuration_pos : 0 < banDuration
  banDuration_le : banDuration ≤ maxBanDuration
  banDuration_whole : nanosPerMilli ∣ banDuration
  maxBanDuration_lt : maxBanDuration < 2 ^ 32 * nanosPerSecond

/-- The policy of a configuration, which is in whole seconds. -/
def BanPolicy.new (threshold windowSecs banDurationSecs maxBanDurationSecs : UInt32) :
    BanPolicy where
  threshold := max threshold.toNat 1
  window := max windowSecs.toNat 1 * nanosPerSecond
  banDuration := max banDurationSecs.toNat 1 * nanosPerSecond
  maxBanDuration :=
    max (maxBanDurationSecs.toNat * nanosPerSecond) (max banDurationSecs.toNat 1 * nanosPerSecond)
  threshold_pos := by omega
  threshold_lt := by
    have := threshold.toNat_lt
    omega
  banDuration_pos := by
    rw [nanosPerSecond]
    omega
  banDuration_le := Nat.le_max_right _ _
  banDuration_whole := by
    refine Nat.dvd_mul_left_of_dvd ?_ _
    decide
  maxBanDuration_lt := by
    have := banDurationSecs.toNat_lt
    have := maxBanDurationSecs.toNat_lt
    rw [nanosPerSecond]
    omega

structure FailureWindow where
  count : ℕ
  windowStart : ℕ

/-- A ban: when it lapses, and the latest it may ever lapse. -/
structure BanEntry where
  expiry : ℕ
  hardDeadline : ℕ
deriving DecidableEq

structure AutoBanStore where
  failures : IndexMap IpAddr FailureWindow
  bans : IndexMap IpAddr BanEntry

def AutoBanStore.new : AutoBanStore :=
  ⟨.empty, .empty⟩

inductive Command where
  | ban (ip : IpAddr) (ttlMs : ℕ)
  | unban (ip : IpAddr)

/-- The command that drops an address for a time.  Zero would be for ever, so it is never less than
a millisecond. -/
def firewallBan (ip : IpAddr) (ttl : ℕ) : Command :=
  .ban ip (max 1 (min (ttl / nanosPerMilli) (2 ^ 64 - 1)))

inductive BanState where
  | extended (remaining : ℕ)
  | lapsed
  | absent

/-- The entry of a ban that a signal finds in force. -/
def BanEntry.extend (policy : BanPolicy) (now : ℕ) (entry : BanEntry) : BanEntry :=
  let extended := min (now + policy.banDuration) entry.hardDeadline
  if entry.expiry < extended then { entry with expiry := extended } else entry

def countedWindow (policy : BanPolicy) (now weight : ℕ) (row : Option FailureWindow) :
    FailureWindow :=
  let entry := row.getD ⟨0, now⟩
  let entry := if policy.window < now - entry.windowStart then ⟨0, now⟩ else entry
  { entry with count := min (entry.count + weight) (2 ^ 32 - 1) }

namespace AutoBanStore

variable (policy : BanPolicy) (store : AutoBanStore) (source : IpAddr) (now : ℕ)

/-- The access of `extend_ban_at` to the ban of the source. -/
def extendEntry : AutoBanStore × BanState :=
  match store.bans.get? source with
  | some entry =>
    if now < entry.expiry then
      let entry := entry.extend policy now
      ({ store with bans := store.bans.insert source entry }, .extended (entry.expiry - now))
    else
      (store, .lapsed)
  | none => (store, .absent)

def removeBan : AutoBanStore :=
  { store with bans := store.bans.shiftRemove source }

def removeFailures : AutoBanStore :=
  { store with failures := store.failures.shiftRemove source }

/-- Weigh one more signal, and say whether the threshold is reached. -/
def countFailure (weight : ℕ) : AutoBanStore × Bool :=
  let entry := countedWindow policy now weight (store.failures.get? source)
  ({ store with failures := store.failures.insert source entry },
    policy.threshold ≤ entry.count)

def insertBan : AutoBanStore :=
  { store with
    bans := store.bans.insert source ⟨now + policy.banDuration, now + policy.maxBanDuration⟩ }

/-- What becomes of a signal that no ban takes. -/
def countAndBan (weight : ℕ) : AutoBanStore × List Command × Bool :=
  match store.countFailure policy source now weight with
  | (store, true) =>
    ((store.removeFailures source).insertBan policy source now,
      [firewallBan source policy.banDuration], true)
  | (store, false) => (store, [], false)

variable (trusted : IpAddr → Bool)

def extendBanAt : AutoBanStore × List Command × Bool :=
  if trusted source then
    (store, [], false)
  else
    match store.extendEntry policy source now with
    | (store, .extended remaining) => (store, [firewallBan source remaining], true)
    | (store, .lapsed) => (store.removeBan source, [], false)
    | (store, .absent) => (store, [], false)

/-- Weigh a signal of a source; the answer is whether this banned it. -/
def recordFailureWeightedAt (weight : ℕ) : AutoBanStore × List Command × Bool :=
  if weight = 0 then
    (store, [], false)
  else if trusted source then
    (store, [], false)
  else
    match store.extendBanAt policy source now trusted with
    | (store, commands, true) => (store, commands, false)
    | (store, _, false) => store.countAndBan policy source now weight

def recordSuccess : AutoBanStore :=
  store.removeFailures source

def isBannedAt : AutoBanStore × Bool :=
  match (store.bans.get? source).map BanEntry.expiry with
  | some expiry =>
    if trusted source then (store, false)
    else if now < expiry then (store, true)
    else (store.removeBan source, false)
  | none => (store, false)

def unban : AutoBanStore × List Command × Bool :=
  let wasBanned := (store.bans.get? source).isSome
  ((store.removeBan source).removeFailures source,
    if wasBanned then [.unban source] else [], wasBanned)

def pruneAt : AutoBanStore where
  bans := store.bans.retain fun entry => now < entry.expiry
  failures := store.failures.retain fun entry => now - entry.windowStart ≤ policy.window

end AutoBanStore

/-! ### The kernel's set -/

/-- The elements of the set, each with the time it expires. -/
abbrev KernelSet := IndexMap IpAddr ℕ

/-- What a command does that reaches the kernel at a time. -/
def KernelSet.apply (now : ℕ) (kernel : KernelSet) : Command → KernelSet
  | .ban ip ttlMs => kernel.insert ip (now + ttlMs * nanosPerMilli)
  | .unban ip => kernel.shiftRemove ip

/-! ### Runs -/

inductive BanEvent where
  | signal (source : IpAddr) (weight now : ℕ)
  | success (source : IpAddr)
  | unban (source : IpAddr)
  | prune (now : ℕ)
  | check (source : IpAddr) (now : ℕ)

/-- The time of an event, if the store reads the clock for it. -/
def BanEvent.time : BanEvent → Option ℕ
  | .signal _ _ now | .prune now | .check _ now => some now
  | .success _ | .unban _ => none

def BanEvent.source : BanEvent → Option IpAddr
  | .signal source _ _ | .success source | .unban source | .check source _ => some source
  | .prune _ => none

inductive BanAnswer where
  | newlyBanned (answer : Bool)
  | banned (answer : Bool)
  | lifted (answer : Bool)

/-- The store and the set of the kernel, under a policy and a set of trusted sources that stay as
they are. -/
def banMachine (policy : BanPolicy) (trusted : IpAddr → Bool) :
    Machine (AutoBanStore × KernelSet) BanEvent BanAnswer where
  step state
    | .signal source weight now =>
      let (store, commands, newlyBanned) :=
        state.1.recordFailureWeightedAt policy source now trusted weight
      ((store, commands.foldl (KernelSet.apply now) state.2), [.newlyBanned newlyBanned])
    | .success source => ((state.1.recordSuccess source, state.2), [])
    | .unban source =>
      let (store, commands, wasBanned) := state.1.unban source
      -- an unban names no time, and the kernel needs none for it
      ((store, commands.foldl (KernelSet.apply 0) state.2), [.lifted wasBanned])
    | .prune now => ((state.1.pruneAt policy now, state.2), [])
    | .check source now =>
      let (store, answer) := state.1.isBannedAt source now trusted
      ((store, state.2), [.banned answer])

end Siphon.Security
