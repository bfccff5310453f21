import Mathlib.Data.UInt

/-!
# Transaction timers

The timers of the transaction machines and their durations, which derive from T1, T2 and T4.
-/

namespace Siphon.Transaction

/-- A duration, in nanoseconds. -/
abbrev Duration : Type := ℕ

/-- An instant, in nanoseconds. -/
abbrev Instant : Type := ℕ

namespace Duration

def fromMillis (n : ℕ) : Duration := n * 1000000

def fromSecs (n : ℕ) : Duration := n * 1000000000

end Duration

def Instant.checkedSub (now : Instant) (d : Duration) : Option Instant :=
  if d ≤ now then some (now - d) else none

/-- Named timers used across all state machines. -/
inductive TimerName where
  | a
  | b
  | c
  | d
  | e
  | f
  | k
  | g
  | h
  | i
  | j
  | trying100
  | noResponse
deriving DecidableEq

structure TimerConfig where
  t1 : Duration
  t2 : Duration
  t4 : Duration
  auto100Trying : Bool
  auto100Delay : Duration
  timerCSecs : ℕ
  timerFSecs : Option { n : ℕ // 0 < n }

namespace TimerConfig

variable (timers : TimerConfig)

/-- The configuration with the default values of the rest. -/
def new (t1 t2 t4 : Duration) : TimerConfig :=
  ⟨t1, t2, t4, true, Duration.fromMillis 200, 181, none⟩

def default : TimerConfig :=
  new (Duration.fromMillis 500) (Duration.fromSecs 4) (Duration.fromSecs 5)

def timerAInitial : Duration := timers.t1

def timerB : Duration := timers.t1 * 64

/-- How long an INVITE with a provisional response waits for its final one, never less than
Timer B. -/
def timerC : Duration := max (Duration.fromSecs timers.timerCSecs) timers.timerB

def timerDUdp : Duration := Duration.fromSecs 32

def timerDTcp : Duration := 0

def timerEInitial : Duration := timers.t1

def timerF : Duration :=
  match timers.timerFSecs with
  | some secs => Duration.fromSecs secs
  | none => timers.t1 * 64

def timerKUdp : Duration := timers.t4

def timerKTcp : Duration := 0

def timerGInitial : Duration := timers.t1

def timerH : Duration := timers.t1 * 64

def timerIUdp : Duration := timers.t4

def timerITcp : Duration := 0

def timerJUdp : Duration := timers.t1 * 64

def timerJTcp : Duration := 0

def nextRetransmit (current : Duration) : Duration := min (current * 2) timers.t2

/-- The sum of the intervals, each twice the one before, that come before the first that is at
least T2. -/
def sumIntervals (t2 elapsed interval : Duration) : Duration :=
  if 0 < interval ∧ interval < t2 then sumIntervals t2 (elapsed + interval) (interval * 2)
  else elapsed
termination_by t2 - interval
decreasing_by
  rename_i h
  obtain ⟨hpos, hlt⟩ := h
  have hnext : interval < interval * 2 := by
    rw [Nat.mul_two]
    exact Nat.lt_add_of_pos_right hpos
  exact Nat.sub_lt_sub_left hlt hnext

/-- Elapsed time until Timer E is first set to T2. -/
def timerEReachesT2 : Duration :=
  if timers.t1 = 0 ∨ timers.t2 ≤ timers.t1 then timers.t2
  else sumIntervals timers.t2 0 timers.t1

/-- Delay before a non-INVITE server transaction sends `100 Trying` by itself. -/
def nistAuto100Delay (reliable : Bool) : Duration :=
  if reliable then timers.auto100Delay else timers.timerEReachesT2

end TimerConfig

end Siphon.Transaction
