import Siphon.Ipsec.Spi

/-!
# SPIs are handed out exclusively

The bitmap stays in step with its count, its padding and the records beside it, through any calls of
the allocator.
-/

namespace Siphon.Ipsec

open List Option Bitmap SpiTable
open Bitmap (bit)

namespace SpiTable

variable {table : SpiTable} {spi other : ℕ}

/-- An SPI of the partition with its bit set. -/
def Holds (table : SpiTable) (spi : ℕ) : Prop :=
  ∃ offset < table.count, spi = table.start + offset ∧ bit table.words offset = true

def InPartition (table : SpiTable) (spi : ℕ) : Prop :=
  table.start ≤ spi ∧ spi < table.start + table.count

def Owned (table : SpiTable) (spi : ℕ) : Prop :=
  (table.owners.get? spi).isSome = true

/-- The bitmap has its bits, its padding and its count. -/
structure Sound (table : SpiTable) : Prop where
  count_pos : 0 < table.count
  fits : table.start + table.count ≤ 2 ^ 32
  length_eq : table.words.length = (table.count + 63) / 64
  padding : ∀ i, table.count ≤ i → i / 64 < table.words.length → bit table.words i = true
  held_eq : table.held = Bitmap.count table.words table.count
  cursor_lt : table.cursor < table.count

/-- What the records say is held is held, and is recorded once. -/
structure Recorded (table : SpiTable) : Prop where
  owned : ∀ spi, table.Owned spi → table.InPartition spi → table.Holds spi
  adopted : ∀ spi ∈ table.orphans, table.InPartition spi → table.Holds spi
  once : ∀ spi, table.Owned spi → spi ∉ table.orphans

/-! ### Places -/

variable {offset : ℕ}

theorem offset_eq_some_iff :
  table.offset spi = some offset ↔ offset < table.count ∧ spi = table.start + offset
  := by
  rw [SpiTable.offset]
  split
  · rw [some_inj]
    omega
  · constructor
    · simp
    · omega

theorem offset_eq_none_iff :
  table.offset spi = none ↔ ¬ table.InPartition spi
  := by
  rw [offset, InPartition]
  split
  · simp
    omega
  · simp
    omega

theorem Sound.div_lt (h : table.Sound) (hlt : offset < table.count) :
  offset / 64 < table.words.length
  := by
  rw [h.length_eq]
  omega

def setOffset (table : SpiTable) (offset : ℕ) : SpiTable :=
  { table with words := Bitmap.setBit table.words offset, held := table.held + 1 }

def clearOffset (table : SpiTable) (offset : ℕ) : SpiTable :=
  { table with words := Bitmap.clearBit table.words offset, held := table.held - 1 }

section

variable (h : table.Sound) (hlt : offset < table.count)
include h hlt

theorem Sound.setOffset (hclear : bit table.words offset = false) :
  (table.setOffset offset).Sound
  := { h with
    length_eq := (length_setBit _ _).trans h.length_eq
    padding := by
      intro i hi hword
      rw [SpiTable.setOffset, length_setBit] at hword
      rw [SpiTable.setOffset, bit_setBit (h.div_lt hlt), h.padding i hi hword, Bool.or_true]
    held_eq := by
      rw [SpiTable.setOffset, count_setBit (h.div_lt hlt) hlt hclear, h.held_eq] }

theorem Sound.clearOffset (hset : bit table.words offset = true) :
  (table.clearOffset offset).Sound
  where
  count_pos := h.count_pos
  fits := h.fits
  length_eq := (length_clearBit _ _).trans h.length_eq
  padding i hi hword := by
    rw [SpiTable.clearOffset, length_clearBit] at hword
    have hne : i ≠ offset := by
      have hle : table.count ≤ i := hi
      omega
    rw [SpiTable.clearOffset, bit_clearBit (h.div_lt hlt), h.padding i hi hword]
    simp [hne]
  held_eq := by
    have hcount := count_clearBit (h.div_lt hlt) hlt hset
    have hheld := h.held_eq
    rw [SpiTable.clearOffset]
    dsimp only
    omega
  cursor_lt := h.cursor_lt

theorem holds_setOffset_iff :
  (table.setOffset offset).Holds other ↔ other = table.start + offset ∨ table.Holds other
  := by
  simp only [Holds, setOffset, bit_setBit (h.div_lt hlt), Bool.or_eq_true,
    decide_eq_true_eq]
  constructor
  · rintro ⟨place, hplace, rfl, rfl | hbit⟩
    · apply Or.inl rfl
    · apply Or.inr ⟨place, hplace, rfl, hbit⟩
  · rintro (rfl | ⟨place, hplace, rfl, hbit⟩)
    · apply Exists.intro offset ⟨hlt, rfl, .inl rfl⟩
    · apply Exists.intro place ⟨hplace, rfl, .inr hbit⟩

theorem holds_clearOffset (hne : other ≠ table.start + offset) (hother : table.Holds other) :
  (table.clearOffset offset).Holds other
  := by
  obtain ⟨place, hplace, rfl, hbit⟩ := hother
  refine ⟨place, hplace, rfl, ?_⟩
  rw [clearOffset, bit_clearBit (h.div_lt hlt), hbit, Bool.and_true, decide_eq_true_eq]
  omega

end

/-! ### Holding and giving back -/

theorem hold_cases (table : SpiTable) (spi : ℕ) :
  table.hold spi = (false, table) ∧ (table.InPartition spi → table.Holds spi) ∨
    ∃ offset < table.count, spi = table.start + offset ∧ bit table.words offset = false ∧
      table.hold spi = (true, table.setOffset offset)
  := by
  rw [hold]
  cases hoffset : table.offset spi with
  | none => apply Or.inl ⟨rfl, fun hin => absurd hin (offset_eq_none_iff.mp hoffset)⟩
  | some offset =>
  obtain ⟨hlt, rfl⟩ := offset_eq_some_iff.mp hoffset
  dsimp only
  cases hbit : bit table.words offset
  · apply Or.inr ⟨offset, hlt, rfl, hbit, rfl⟩
  · apply Or.inl ⟨rfl, fun _ => ⟨offset, hlt, rfl, hbit⟩⟩

theorem unhold_cases (table : SpiTable) (spi : ℕ) :
  table.unhold spi = table ∨
    ∃ offset < table.count, spi = table.start + offset ∧ bit table.words offset = true ∧
      table.unhold spi = table.clearOffset offset
  := by
  rw [unhold]
  cases hoffset : table.offset spi with
  | none => apply Or.inl rfl
  | some offset =>
  obtain ⟨hlt, rfl⟩ := offset_eq_some_iff.mp hoffset
  dsimp only
  cases hbit : bit table.words offset
  · apply Or.inl rfl
  · apply Or.inr ⟨offset, hlt, rfl, hbit, rfl⟩

/-- Two tables with the same partition and the same records. -/
structure SameRecords (table next : SpiTable) : Prop where
  owners : next.owners = table.owners
  orphans : next.orphans = table.orphans
  start : next.start = table.start
  count : next.count = table.count

theorem sound_hold (h : table.Sound) (spi : ℕ) :
  (table.hold spi).2.Sound
  := by
  rcases table.hold_cases spi with ⟨heq, -⟩ | ⟨offset, hlt, -, hclear, heq⟩
  · rwa [heq]
  · rw [heq]
    apply h.setOffset hlt hclear

theorem sound_unhold (h : table.Sound) (spi : ℕ) :
  (table.unhold spi).Sound
  := by
  rcases table.unhold_cases spi with heq | ⟨offset, hlt, -, hset, heq⟩
  · rwa [heq]
  · rw [heq]
    apply h.clearOffset hlt hset

theorem sameRecords_hold (table : SpiTable) (spi : ℕ) :
  SameRecords table (table.hold spi).2
  := by
  rcases table.hold_cases spi with ⟨heq, -⟩ | ⟨offset, -, -, -, heq⟩ <;> rw [heq]
  · exact ⟨rfl, rfl, rfl, rfl⟩
  · exact ⟨rfl, rfl, rfl, rfl⟩

theorem sameRecords_unhold (table : SpiTable) (spi : ℕ) :
  SameRecords table (table.unhold spi)
  := by
  rcases table.unhold_cases spi with heq | ⟨offset, -, -, -, heq⟩ <;> rw [heq]
  · exact ⟨rfl, rfl, rfl, rfl⟩
  · exact ⟨rfl, rfl, rfl, rfl⟩

theorem holds_hold (h : table.Sound) (hin : table.InPartition other)
    (hother : other = spi ∨ table.Holds other) :
  (table.hold spi).2.Holds other
  := by
  rcases table.hold_cases spi with ⟨heq, hheld⟩ | ⟨offset, hlt, rfl, -, heq⟩
  · rw [heq]
    rcases hother with rfl | hother
    · exact hheld hin
    · exact hother
  · rwa [heq, holds_setOffset_iff h hlt]

theorem holds_unhold (h : table.Sound) (hne : other ≠ spi) (hother : table.Holds other) :
  (table.unhold spi).Holds other
  := by
  rcases table.unhold_cases spi with heq | ⟨offset, hlt, rfl, -, heq⟩
  · rwa [heq]
  · rw [heq]
    exact holds_clearOffset h hlt hne hother

/-! ### Calls on one SPI -/

/-- The bitmap is sound and the records fit it. -/
structure Consistent (table : SpiTable) : Prop extends Sound table, Recorded table

theorem Sound.withRecords (h : table.Sound) (owners : IndexMap ℕ SpiOwner) (orphans : List ℕ) :
  Sound { table with owners := owners, orphans := orphans }
  := ⟨h.count_pos, h.fits, h.length_eq, h.padding, h.held_eq, h.cursor_lt⟩

/-- The records that a table has fit another one that holds what they say. -/
theorem SameRecords.recorded {next : SpiTable} (h : SameRecords table next)
    (hholds : ∀ s, table.Owned s ∨ s ∈ table.orphans → table.InPartition s → next.Holds s)
    (honce : ∀ s, table.Owned s → s ∉ table.orphans) :
  next.Recorded
  := by
  constructor <;> simp only [Owned, InPartition, h.owners, h.orphans, h.start, h.count]
  · exact fun s hs => hholds s (.inl hs)
  · exact fun s hs => hholds s (.inr hs)
  · exact honce

theorem recorded_hold (h : table.Sound)
    (hholds : ∀ s, table.Owned s ∨ s ∈ table.orphans → table.InPartition s →
      s = spi ∨ table.Holds s)
    (honce : ∀ s, table.Owned s → s ∉ table.orphans) :
  (table.hold spi).2.Recorded
  := (table.sameRecords_hold spi).recorded
    (fun s hs hin => holds_hold h hin (hholds s hs hin)) honce

theorem Recorded.holds (h : table.Recorded) (hspi : table.Owned spi ∨ spi ∈ table.orphans)
    (hin : table.InPartition spi) :
  table.Holds spi
  := hspi.elim (h.owned spi · hin) (h.adopted spi · hin)

section

variable (h : table.Consistent)

include h

theorem recorded_unhold (howned : ¬ table.Owned spi) (hadopted : spi ∉ table.orphans) :
  (table.unhold spi).Recorded
  := by
  apply (table.sameRecords_unhold spi).recorded _ h.once
  intro s hs hin
  apply holds_unhold h.toSound _ (h.toRecorded.holds hs hin)
  rintro rfl
  exact hs.elim howned hadopted

theorem consistent_unhold (howned : ¬ table.Owned spi) (hadopted : spi ∉ table.orphans) :
  (table.unhold spi).Consistent
  := ⟨sound_unhold h.toSound spi, recorded_unhold h howned hadopted⟩

variable (owner : SpiOwner)

theorem consistent_take (spi : ℕ) :
  (table.take owner spi).2.Consistent
  := by
  have howned : ∀ s, Owned { table with
      owners := table.owners.insert spi owner, orphans := table.orphans.filter (· ≠ spi) } s →
      s = spi ∨ table.Owned s := by
    intro s hs
    rw [Owned, IndexMap.get?_insert] at hs
    by_cases hspi : s = spi
    · apply Or.inl hspi
    · rw [if_neg hspi] at hs
      apply Or.inr hs
  have hsound := h.toSound.withRecords (table.owners.insert spi owner)
    (table.orphans.filter (· ≠ spi))
  apply Consistent.mk (sound_hold hsound spi)
  apply recorded_hold hsound
  · rintro s (hs | hs) hin
    · apply (howned s hs).imp_right fun hs => h.owned s hs hin
    · apply Or.inr (h.adopted s (mem_of_mem_filter hs) hin)
  · intro s hs hmem
    obtain ⟨hmem, hne⟩ := mem_filter.mp hmem
    rcases howned s hs with rfl | hs
    · simp at hne
    · apply h.once s hs hmem

theorem consistent_adopt (howned : ¬ table.Owned spi) :
  Consistent { (table.hold spi).2 with orphans := (table.hold spi).2.orphans.insert spi }
  := by
  have hsame := table.sameRecords_hold spi
  have hsound := sound_hold h.toSound spi
  have hrec : (table.hold spi).2.Recorded :=
    recorded_hold h.toSound (fun s hs hin => .inr (h.toRecorded.holds hs hin)) h.once
  apply Consistent.mk (hsound.withRecords _ _)
  constructor
  · exact hrec.owned
  · intro s hs hin
    rcases mem_insert_iff.mp hs with rfl | hs
    · rw [hsame.start, hsame.count] at hin
      apply holds_hold h.toSound hin (.inl rfl)
    · apply hrec.adopted s hs hin
  · intro s hs hmem
    rcases mem_insert_iff.mp hmem with rfl | hmem
    · rw [hsame.owners] at hs
      apply howned hs
    · apply hrec.once s hs hmem

theorem consistent_forget (spi : ℕ) :
  Consistent { table with orphans := table.orphans.filter (· ≠ spi) }
  := by
  apply Consistent.mk (h.toSound.withRecords table.owners _)
  constructor
  · exact h.owned
  · intro s hs
    apply h.adopted s (mem_of_mem_filter hs)
  · intro s hs hmem
    apply h.once s hs (mem_of_mem_filter hmem)

theorem consistent_disown (spi : ℕ) :
  Consistent { table with owners := table.owners.shiftRemove spi } ∧
    ¬ Owned { table with owners := table.owners.shiftRemove spi } spi
  := by
  have howned : ∀ s, Owned { table with owners := table.owners.shiftRemove spi } s →
      s ≠ spi ∧ table.Owned s := by
    intro s hs
    rw [Owned, IndexMap.get?_shiftRemove] at hs
    by_cases hspi : s = spi
    · simp [hspi] at hs
    · rw [if_neg hspi] at hs
      apply And.intro hspi hs
  apply And.intro _ fun hspi => (howned spi hspi).1 rfl
  apply Consistent.mk (h.toSound.withRecords _ table.orphans)
  constructor
  · intro s hs
    apply h.owned s (howned s hs).2
  · exact h.adopted
  · intro s hs
    apply h.once s (howned s hs).2

/-! ### Calls -/

theorem consistent_claim (spis : ℕ × ℕ) :
  (table.claim owner spis).2.Consistent
  := by
  rw [claim]
  split
  · exact h
  split
  · exact h
  split
  · exact h
  · apply consistent_take (consistent_take h owner spis.1)

theorem consistent_release (spis : List ℕ) :
  (table.release owner spis).Consistent
  := by
  apply List.foldlRecOn _ _ h
  intro table h spi _
  split
  · rename_i howner
    obtain ⟨hdisowned, hnot⟩ := consistent_disown h spi
    apply consistent_unhold hdisowned hnot
    apply h.once
    rw [Owned, howner, isSome_some]
  · exact h

theorem consistent_releaseUnowned (spis : List ℕ) :
  (table.releaseUnowned spis).Consistent
  := by
  apply List.foldlRecOn _ _ h
  intro table h spi _
  split
  · rename_i hspi
    apply consistent_unhold h _ hspi.2
    rw [Owned, not_isSome_iff_eq_none, ← isNone_iff_eq_none]
    apply hspi.1
  · exact h

theorem consistent_adoptOrphans (kernelSpis : List ℕ) :
  (table.adoptOrphans kernelSpis).2.Consistent
  := by
  apply List.foldlRecOn (motive := fun r : ℕ × SpiTable => r.2.Consistent) _ _ h
  rintro ⟨adopted, table⟩ h spi -
  dsimp only
  split
  · exact h
  rename_i howned
  have hadopted := consistent_adopt h howned
  split
  · exact h
  · rename_i next heq
    rwa [heq] at hadopted

theorem consistent_releaseDepartedOrphans (stillInKernel : ℕ → Bool) :
  (table.releaseDepartedOrphans stillInKernel).2.Consistent
  := by
  apply List.foldlRecOn _ _ h
  intro table h spi _
  have hforgot := consistent_forget h spi
  dsimp only
  split
  · rename_i hnone
    apply consistent_unhold hforgot
    · rw [Owned, not_isSome_iff_eq_none, ← isNone_iff_eq_none]
      exact hnone
    · simp
  · exact hforgot

end

/-! ### Allocation -/

/-- An SPI of the partition that nothing holds. -/
def Free (table : SpiTable) (spi : ℕ) : Prop :=
  table.InPartition spi ∧ ¬ table.Holds spi

theorem free_iff :
  table.Free spi ↔
    ∃ offset < table.count, spi = table.start + offset ∧ bit table.words offset = false
  := by
  constructor
  · rintro ⟨⟨hle, hlt⟩, hnot⟩
    refine ⟨spi - table.start, by omega, by omega, ?_⟩
    apply Bool.eq_false_of_not_eq_true
    intro hset
    apply hnot ⟨spi - table.start, by omega, by omega, hset⟩
  · rintro ⟨offset, hlt, rfl, hclear⟩
    apply And.intro ⟨Nat.le_add_right _ _, Nat.add_lt_add_left hlt _⟩
    rintro ⟨place, -, hplace, hset⟩
    rw [← Nat.add_left_cancel hplace, hclear] at hset
    exact absurd hset (by decide)

theorem takeFreeFrom_eq (h : table.Sound) (hfree : table.held < table.count) {start : ℕ}
    (hstart : start < table.count) :
  ∃ offset < table.count, bit table.words offset = false ∧
    table.takeFreeFrom start = some (offset, table.setOffset offset)
  := by
  rw [h.held_eq] at hfree
  obtain ⟨place, hplace, hclear⟩ := exists_clear hfree
  have hsome := scan_isSome (h.div_lt hstart) (h.div_lt hplace) hclear
  obtain ⟨offset, hscan⟩ := isSome_iff_exists.mp hsome
  have hne : table.words ≠ [] := by
    apply ne_nil_of_length_pos
    apply Nat.zero_lt_of_lt (h.div_lt hstart)
  obtain ⟨hword, hbit⟩ := scan_eq_some hne hscan
  refine ⟨offset, ?_, hbit, ?_⟩
  · by_contra hge
    rw [h.padding offset (not_lt.mp hge) hword] at hbit
    exact absurd hbit (by decide)
  · rw [takeFreeFrom, hscan]
    rfl

theorem two_le_of_free (h : table.Sound) (hne : spi ≠ other) (hspi : table.Free spi)
    (hother : table.Free other) :
  2 ≤ table.count - table.held
  := by
  obtain ⟨first, hfirst, rfl, hclear⟩ := free_iff.mp hspi
  obtain ⟨second, hsecond, rfl, hclear'⟩ := free_iff.mp hother
  have hsound := h.setOffset hfirst hclear
  have hbit : bit (table.setOffset first).words second = false := by
    rw [setOffset, bit_setBit (h.div_lt hfirst), hclear', Bool.or_false,
      decide_eq_false_iff_not]
    omega
  have hsound' := hsound.setOffset hsecond hbit
  have hle := count_le ((table.setOffset first).setOffset second).words table.count
  have hheld : table.held + 1 + 1 = _ := hsound'.held_eq
  have hcount : ((table.setOffset first).setOffset second).count = table.count := rfl
  rw [hcount] at hheld
  omega

theorem Recorded.setOffset (h : table.Sound) (hr : table.Recorded) (hlt : offset < table.count) :
  (table.setOffset offset).Recorded
  where
  owned s hs hin := (holds_setOffset_iff h hlt).mpr (.inr (hr.owned s hs hin))
  adopted s hs hin := (holds_setOffset_iff h hlt).mpr (.inr (hr.adopted s hs hin))
  once := hr.once

structure AllocatesExclusively (table : SpiTable) : Prop where
  /-- The unreachable branch is not reached. -/
  total : ∃ answer, table.allocatePair = some answer
  succeeds_iff : (∃ pair next, table.allocatePair = some (.ok pair, next)) ↔
    ∃ spi other, spi ≠ other ∧ table.Free spi ∧ table.Free other
  distinct : ∀ first second next, table.allocatePair = some (.ok (first, second), next) →
    first ≠ second
  exclusive : ∀ first second next, table.allocatePair = some (.ok (first, second), next) →
    ∀ spi, spi = first ∨ spi = second →
      table.Free spi ∧ ¬ table.Owned spi ∧ spi ∉ table.orphans ∧ next.Holds spi ∧ spi < 2 ^ 32
  refused : ∀ error next, table.allocatePair = some (.error error, next) → next = table

theorem Recorded.not_recorded (h : table.Recorded) (hfree : table.Free spi) :
  ¬ table.Owned spi ∧ spi ∉ table.orphans
  := by
  rw [← not_or]
  intro hspi
  apply hfree.2 (h.holds hspi hfree.1)

theorem allocatePair_cases (h : table.Sound) :
  (table.count - table.held < 2 ∧
    table.allocatePair = some (.error (.spiExhausted table.start table.count), table)) ∨
  ∃ first < table.count, ∃ second < table.count, first ≠ second ∧
    bit table.words first = false ∧ bit table.words second = false ∧
    table.allocatePair = some (.ok (table.start + first, table.start + second),
      { (table.setOffset first).setOffset second with cursor := (second + 1) % table.count })
  := by
  by_cases hfull : table.count - table.held < 2
  · refine .inl ⟨hfull, ?_⟩
    rw [allocatePair, if_pos hfull]
  right
  obtain ⟨first, hfirst, hclear, htake⟩ :=
    takeFreeFrom_eq h (by omega : table.held < table.count) h.cursor_lt
  have hsound := h.setOffset hfirst hclear
  have hheld : (table.setOffset first).held < (table.setOffset first).count := by
    rw [setOffset]
    dsimp only
    omega
  have hafter : (first + 1) % table.count < table.count := Nat.mod_lt _ h.count_pos
  obtain ⟨second, hsecond, hclear', htake'⟩ := takeFreeFrom_eq hsound hheld hafter
  rw [setOffset, bit_setBit (h.div_lt hfirst), Bool.or_eq_false_iff,
    decide_eq_false_iff_not] at hclear'
  refine ⟨first, hfirst, second, hsecond, Ne.symm hclear'.1, hclear, hclear'.2, ?_⟩
  rw [allocatePair, if_neg (by omega), htake]
  dsimp only [bind, Option.bind]
  have hcount : (table.setOffset first).count = table.count := rfl
  rw [hcount, htake']
  rfl

theorem Consistent.allocatesExclusively (h : table.Consistent) :
  table.AllocatesExclusively
  := by
  rcases allocatePair_cases h.toSound with ⟨hfull, heq⟩ | ⟨first, hfirst, second, hsecond, hne,
    hclear, hclear', heq⟩
  · constructor
    · exact ⟨_, heq⟩
    · rw [heq]
      constructor
      · simp
      · rintro ⟨spi, other, hne, hspi, hother⟩
        have hroom := two_le_of_free h.toSound hne hspi hother
        omega
    · simp [heq]
    · simp [heq]
    · intro error next hnext
      rw [heq] at hnext
      simp only [some_inj, Prod.mk.injEq] at hnext
      exact hnext.2.symm
  · have hfree : table.Free (table.start + first) := free_iff.mpr ⟨first, hfirst, rfl, hclear⟩
    have hfree' : table.Free (table.start + second) := free_iff.mpr ⟨second, hsecond, rfl, hclear'⟩
    have hsound := h.toSound.setOffset hfirst hclear
    have hholds : ∀ spi, spi = table.start + first ∨ spi = table.start + second →
        ((table.setOffset first).setOffset second).Holds spi := by
      intro spi hspi
      rw [holds_setOffset_iff hsound hsecond, holds_setOffset_iff h.toSound hfirst]
      tauto
    constructor
    · exact ⟨_, heq⟩
    · constructor
      · intro _
        exact ⟨_, _, by omega, hfree, hfree'⟩
      · intro _
        exact ⟨_, _, heq⟩
    · intro f s next hnext
      rw [heq] at hnext
      simp only [some_inj, Prod.mk.injEq, Except.ok.injEq] at hnext
      omega
    · intro f s next hnext spi hspi
      rw [heq] at hnext
      obtain ⟨⟨rfl, rfl⟩, rfl⟩ := hnext
      have hspifree : table.Free spi := by
        rcases hspi with rfl | rfl
        · exact hfree
        · exact hfree'
      obtain ⟨howned, hadopted⟩ := h.toRecorded.not_recorded hspifree
      have hfits := h.fits
      exact ⟨hspifree, howned, hadopted, hholds spi hspi, by omega⟩
    · simp [heq]

theorem consistent_allocatePair (h : table.Consistent) :
  (table.after .allocatePair).Consistent
  := by
  rw [after]
  rcases allocatePair_cases h.toSound with ⟨-, heq⟩ | ⟨first, hfirst, second, hsecond, hne,
    hclear, hclear', heq⟩
  · rwa [heq]
  rw [heq]
  have hsound := h.toSound.setOffset hfirst hclear
  have hbit : bit (table.setOffset first).words second = false := by
    rw [setOffset, bit_setBit (h.toSound.div_lt hfirst), hclear', Bool.or_false,
      decide_eq_false_iff_not]
    exact Ne.symm hne
  have hsound' := hsound.setOffset hsecond hbit
  have hrec := (h.toRecorded.setOffset h.toSound hfirst).setOffset hsound hsecond
  apply Consistent.mk
  · exact ⟨hsound'.count_pos, hsound'.fits, hsound'.length_eq, hsound'.padding, hsound'.held_eq,
      Nat.mod_lt _ h.count_pos⟩
  · exact ⟨hrec.owned, hrec.adopted, hrec.once⟩

theorem consistent_after (h : table.Consistent) (call : SpiCall) :
  (table.after call).Consistent
  := by
  cases call with
  | allocatePair => exact consistent_allocatePair h
  | claim owner spis => exact consistent_claim h owner spis
  | release owner spis => exact consistent_release h owner spis
  | releaseUnowned spis => exact consistent_releaseUnowned h spis
  | adoptOrphans kernelSpis => exact consistent_adoptOrphans h kernelSpis
  | releaseDepartedOrphans stillInKernel =>
    exact consistent_releaseDepartedOrphans h stillInKernel

/-! ### The new table -/

theorem bit_padded {count i : ℕ} (hword : i / 64 < (count + 63) / 64) :
  bit (if count % 64 ≠ 0 then
      (List.replicate ((count + 63) / 64) (0 : BitVec 64)).modify ((count + 63) / 64 - 1)
        fun _ => ~~~(1#64 <<< (count % 64) - 1)
    else List.replicate ((count + 63) / 64) 0) i = decide (count ≤ i)
  := by
  have hzero : (List.replicate ((count + 63) / 64) (0 : BitVec 64)).getD (i / 64) 0 = 0 := by
    rw [getD_eq_getElem?_getD, List.getElem?_replicate, if_pos hword, getD_some]
  have hclear : (0 : BitVec 64).getLsbD (i % 64) = false := BitVec.getLsbD_zero
  have hlt : i % 64 < 64 := Nat.mod_lt _ (by decide)
  rw [bit_eq_getLsbD]
  split
  · rename_i hused
    rw [getD_modify _ _ _ _ (by rw [length_replicate]; omega), hzero]
    split
    · rename_i hlast
      have hbelow : ~~~(1#64 <<< (count % 64) - 1) = ~~~Bitmap.below count := rfl
      rw [hbelow, BitVec.getLsbD_not, getLsbD_below, decide_eq_true hlt, Bool.true_and,
        ← decide_not, decide_eq_decide]
      omega
    · rw [hclear, eq_comm, decide_eq_false_iff_not]
      omega
  · rw [hzero, hclear, eq_comm, decide_eq_false_iff_not]
    omega

variable (start count : UInt32)

theorem length_new :
  (new start count).words.length = ((new start count).count + 63) / 64
  := by
  rw [new]
  split
  · rw [length_modify, length_replicate]
  · rw [length_replicate]

theorem bit_new {i : ℕ} (hword : i / 64 < (new start count).words.length) :
  bit (new start count).words i = decide ((new start count).count ≤ i)
  := by
  rw [length_new] at hword
  rw [← bit_padded hword, new]
  simp only [length_replicate]

theorem consistent_new :
  (new start count).Consistent
  := by
  have hstart := start.toNat_lt
  have hbounds : 0 < (new start count).count ∧
      (new start count).start + (new start count).count ≤ 2 ^ 32 := by
    simp only [new, minSpi, maxSpiRangeCount]
    omega
  apply Consistent.mk
  · refine ⟨hbounds.1, hbounds.2, length_new start count, ?_, ?_, hbounds.1⟩
    · intro i hi hword
      rw [bit_new start count hword, decide_eq_true hi]
    have hnone : Bitmap.count (new start count).words (new start count).count = 0 := by
      rw [Bitmap.count, Finset.card_eq_zero, Finset.filter_eq_empty_iff]
      intro i hi
      have hlt := Finset.mem_range.mp hi
      rw [bit_new start count (by rw [length_new]; omega), decide_eq_true_eq]
      exact not_le.mpr hlt
    rw [hnone]
    rfl
  · constructor <;> simp [Owned, new]

theorem claim_eq_error {owner : SpiOwner} {spis : ℕ × ℕ} {error : IpsecError} {next : SpiTable}
    (h : table.claim owner spis = (.error error, next)) :
  next = table
  := by
  rw [claim] at h
  split at h
  · exact (Prod.mk.inj h).2.symm
  split at h
  · exact (Prod.mk.inj h).2.symm
  split at h
  · exact (Prod.mk.inj h).2.symm
  · exact absurd (Prod.mk.inj h).1 (by simp)

end SpiTable

/-- After any calls, the allocator is consistent, its next pair is exclusive, and a refusal changes
nothing. -/
theorem spiTable_of_any_calls (start count : UInt32) (calls : List SpiCall) :
  let table := spiMachine.run (SpiTable.new start count) calls
  table.Consistent ∧ table.AllocatesExclusively ∧
    ∀ owner spis error next, table.claim owner spis = (.error error, next) → next = table
  := by
  intro table
  have hinv : spiMachine.Invariant SpiTable.Consistent :=
    fun _ call h => SpiTable.consistent_after h call
  have hconsistent : table.Consistent := hinv.run (SpiTable.consistent_new start count) calls
  refine ⟨hconsistent, hconsistent.allocatesExclusively, ?_⟩
  intro owner spis error next h
  apply SpiTable.claim_eq_error h

end Siphon.Ipsec
