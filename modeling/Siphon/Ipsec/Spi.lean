import Siphon.Library.Bitmap
import Siphon.Library.IndexMap
import Siphon.Library.Run
import Siphon.Transport.Address

/-!
# The allocator of security parameter indexes

A partition of SPIs is a bitmap, with a bit set while its SPI is reserved, owned by a live pair or
used by an association that outlived a restart.  Beside it stand the owners of the SPIs of live
pairs, which may lie outside the partition, and the SPIs adopted from the kernel.
-/

namespace Siphon.Ipsec

def minSpi : ℕ := 256

def maxSpiRangeCount : ℕ := 2 ^ 28

/-- Who owns an SPI: the address and the protected client port. -/
abbrev SpiOwner := IpAddr × UInt16

inductive IpsecError where
  | spiExhausted (start count : ℕ)
  | spiInUse (spi : ℕ)

structure SpiTable where
  start : ℕ
  count : ℕ
  cursor : ℕ
  words : Bitmap.Words
  /-- How many SPIs of the partition have their bit set. -/
  held : ℕ
  owners : IndexMap ℕ SpiOwner
  orphans : List ℕ

/-- A partition.  The padding bits of the last word are set. -/
def SpiTable.new (start count : UInt32) : SpiTable :=
  let start := max start.toNat minSpi
  let room := 2 ^ 32 - 1 - start + 1
  let count := min (max 2 (min count.toNat maxSpiRangeCount)) room
  let words := List.replicate ((count + 63) / 64) (0 : BitVec 64)
  let usedInLast := count % 64
  { start, count
    cursor := 0
    words := if usedInLast ≠ 0 then
        words.modify (words.length - 1) fun _ => ~~~(1#64 <<< usedInLast - 1)
      else words
    held := 0
    owners := .empty
    orphans := [] }

namespace SpiTable

/-! ### Bits -/

variable (table : SpiTable)

def offset (spi : ℕ) : Option ℕ :=
  if table.start ≤ spi ∧ spi - table.start < table.count then some (spi - table.start) else none

/-- Set the bit of an SPI of the partition, and say if it was clear. -/
def hold (spi : ℕ) : Bool × SpiTable :=
  match table.offset spi with
  | none => (false, table)
  | some offset =>
    if Bitmap.bit table.words offset then (false, table)
    else
      (true, { table with words := Bitmap.setBit table.words offset, held := table.held + 1 })

def unhold (spi : ℕ) : SpiTable :=
  match table.offset spi with
  | none => table
  | some offset =>
    if Bitmap.bit table.words offset then
      { table with words := Bitmap.clearBit table.words offset, held := table.held - 1 }
    else table

/-- Set and return the first clear bit from a place on, wrapping around.  Without one the code is at
its unreachable branch. -/
def takeFreeFrom (start : ℕ) : Option (ℕ × SpiTable) :=
  (Bitmap.scan table.words start).map fun offset =>
    (offset, { table with words := Bitmap.setBit table.words offset, held := table.held + 1 })

/-! ### Operations -/

/-- Reserve two free SPIs of the partition. -/
def allocatePair : Option (Except IpsecError (ℕ × ℕ) × SpiTable) :=
  if table.count - table.held < 2 then
    some (.error (.spiExhausted table.start table.count), table)
  else do
    let (first, table) ← table.takeFreeFrom table.cursor
    let afterFirst := (first + 1) % table.count
    let (second, table) ← table.takeFreeFrom afterFirst
    let table := { table with cursor := (second + 1) % table.count }
    some (.ok (table.start + first, table.start + second), table)

/-- Make a pair the owner of an SPI, and say if it had none. -/
def take (owner : SpiOwner) (table : SpiTable) (spi : ℕ) : Bool × SpiTable :=
  let newly := (table.owners.get? spi).isNone
  let table := { table with
    owners := table.owners.insert spi owner, orphans := table.orphans.filter (· ≠ spi) }
  (newly, (table.hold spi).2)

/-- Record the owner of two SPIs, and say which it newly took. -/
def claim (owner : SpiOwner) (spis : ℕ × ℕ) :
    Except IpsecError (Bool × Bool) × SpiTable :=
  let ownedByOther spi := (table.owners.get? spi).any (· ≠ owner)
  if spis.1 = spis.2 then (.error (.spiInUse spis.1), table)
  else if ownedByOther spis.1 then (.error (.spiInUse spis.1), table)
  else if ownedByOther spis.2 then (.error (.spiInUse spis.2), table)
  else
    let (first, table) := table.take owner spis.1
    let (second, table) := table.take owner spis.2
    (.ok (first, second), table)

def release (owner : SpiOwner) (spis : List ℕ) : SpiTable :=
  spis.foldl (fun table spi =>
    if table.owners.get? spi = some owner then
      unhold { table with owners := table.owners.shiftRemove spi } spi
    else table) table

/-- Give back the reservations that no pair took. -/
def releaseUnowned (spis : List ℕ) : SpiTable :=
  spis.foldl (fun table spi =>
    if (table.owners.get? spi).isNone ∧ spi ∉ table.orphans then table.unhold spi else table) table

/-- Hold the SPIs of the partition that the kernel still has and nothing holds, and count them. -/
def adoptOrphans (kernelSpis : List ℕ) : ℕ × SpiTable :=
  kernelSpis.foldl (fun (adopted, table) spi =>
    if (table.owners.get? spi).isSome then (adopted, table)
    else
      match table.hold spi with
      | (false, _) => (adopted, table)
      | (true, table) => (adopted + 1, { table with orphans := table.orphans.insert spi }))
    (0, table)

/-- Release the adopted SPIs that the kernel no longer has, and count them. -/
def releaseDepartedOrphans (stillInKernel : ℕ → Bool) : ℕ × SpiTable :=
  let departed := table.orphans.filter fun spi => !stillInKernel spi
  (departed.length, departed.foldl (fun table spi =>
    let table := { table with orphans := table.orphans.filter (· ≠ spi) }
    if (table.owners.get? spi).isNone then table.unhold spi else table) table)

end SpiTable

/-! ### Runs -/

inductive SpiCall where
  | allocatePair
  | claim (owner : SpiOwner) (spis : ℕ × ℕ)
  | release (owner : SpiOwner) (spis : List ℕ)
  | releaseUnowned (spis : List ℕ)
  | adoptOrphans (kernelSpis : List ℕ)
  | releaseDepartedOrphans (stillInKernel : ℕ → Bool)

/-- The table after a call.  A panic would leave it as it was. -/
def SpiTable.after (table : SpiTable) : SpiCall → SpiTable
  | .allocatePair => (table.allocatePair.map Prod.snd).getD table
  | .claim owner spis => (table.claim owner spis).2
  | .release owner spis => table.release owner spis
  | .releaseUnowned spis => table.releaseUnowned spis
  | .adoptOrphans kernelSpis => (table.adoptOrphans kernelSpis).2
  | .releaseDepartedOrphans stillInKernel => (table.releaseDepartedOrphans stillInKernel).2

def spiMachine : Machine SpiTable SpiCall Empty where
  step table call := (table.after call, [])

end Siphon.Ipsec
