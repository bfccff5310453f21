import Siphon.Library.Run
import Siphon.Library.Text

/-!
# Subscription dialogs and their cache

A dialog lives in memory and is written through to a cache.  The calls on one dialog run
interleaved, one change in memory or one cache task at a time.
-/

namespace Siphon.Subscribe

structure SubscribeDialog where
  id : Text
  expiresSecs : ℕ
  createdAtUnix : ℕ
  cseq : UInt32
  eventVersion : UInt32
  terminated : Bool
deriving DecidableEq

namespace SubscribeDialog

/-- One more, unless it is the greatest number. -/
def saturatingSucc (n : UInt32) : UInt32 :=
  if n = 0xffffffff then n else n + 1

def nextCseq (dialog : SubscribeDialog) : SubscribeDialog :=
  { dialog with cseq := saturatingSucc dialog.cseq }

end SubscribeDialog

/-! ### Calls on one dialog -/

/-- A version of the dialog, with the call that made it. -/
structure Version where
  writer : ℕ
  dialog : SubscribeDialog

inductive SubscribeCall where
  | put (dialog : SubscribeDialog)
  | update (mutate : SubscribeDialog → SubscribeDialog)
  | remove

/-- A call under way: what it makes of the dialog, once that is known, whether it still has to
change the entry in memory, and whether its cache task still has to run. -/
structure Running where
  call : SubscribeCall
  entry : Option (Option Version)
  changes : Bool
  stores : Bool

/-- The entry in memory, the entry of the cache and the calls.  The calls of the last change and of
the last task are kept beside. -/
structure DialogStore where
  memory : Option Version := none
  cache : Option Version := none
  calls : List Running := []
  lastChange : Option ℕ := none
  lastTask : Option ℕ := none

namespace DialogStore

/-- What a call makes of the entry in memory; an update of a dialog that is not there makes
nothing. -/
def changed (memory : Option Version) (index : ℕ) : SubscribeCall → Option (Option Version)
  | .put dialog => some (some ⟨index, dialog⟩)
  | .update mutate => memory.map fun version => some ⟨index, mutate version.dialog⟩
  | .remove => some none

variable (store : DialogStore)

/-- A call begins.  The task of a put is spawned before the entry in memory is changed. -/
def start (call : SubscribeCall) : DialogStore :=
  let entry :=
    match call with
    | .put dialog => some (some ⟨store.calls.length, dialog⟩)
    | .update _ | .remove => none
  { store with calls := store.calls ++ [⟨call, entry, true, true⟩] }

def change (index : ℕ) : DialogStore :=
  match store.calls[index]? with
  | none => store
  | some running =>
    if running.changes then
      match changed store.memory index running.call with
      | none => { store with calls := store.calls.set index { running with changes := false } }
      | some entry =>
        { store with
          memory := entry
          lastChange := some index
          calls := store.calls.set index { running with entry := some entry, changes := false } }
    else store

/-- The cache task of a call runs, if it was spawned. -/
def runTask (index : ℕ) : DialogStore :=
  match store.calls[index]? with
  | none => store
  | some running =>
    match running.entry with
    | none => store
    | some entry =>
      if running.stores then
        { store with
          cache := entry
          lastTask := some index
          calls := store.calls.set index { running with stores := false } }
      else store

inductive Input where
  | start (call : SubscribeCall)
  | change (index : ℕ)
  | task (index : ℕ)

/-- Calls on one dialog under any interleaving. -/
def machine : Machine DialogStore Input Empty where
  step store
    | .start call => (store.start call, [])
    | .change index => (store.change index, [])
    | .task index => (store.runTask index, [])

/-- Every call has made its change, and every task has run. -/
def Finished : Prop :=
  ∀ running ∈ store.calls, running.changes = false ∧ (running.entry.isSome → running.stores = false)

instance (store : DialogStore) : Decidable store.Finished :=
  inferInstanceAs (Decidable (∀ running ∈ store.calls, running.changes = false
    ∧ (running.entry.isSome → running.stores = false)))

/-! ### Reading a dialog -/

def getLocal (store : DialogStore) : Option SubscribeDialog :=
  (store.memory.map Version.dialog).filter fun dialog => !dialog.terminated

/-- The dialog in memory or, if there is none, in the cache. -/
def get (store : DialogStore) : Option SubscribeDialog :=
  match store.memory with
  | some _ => store.getLocal
  | none => (store.cache.map Version.dialog).filter fun dialog => !dialog.terminated

/-- A new process with the same cache. -/
def restart (store : DialogStore) : DialogStore :=
  { cache := store.cache }

end DialogStore

end Siphon.Subscribe
