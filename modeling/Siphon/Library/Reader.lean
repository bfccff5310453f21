import Siphon.Library.BigEndian

/-!
# Readers

A reader takes a value from the front of some bytes, or refuses them.
-/

abbrev Octets (n : ℕ) : Type := { bytes : Bytes // bytes.length = n }

abbrev Reader : Type → Type := StateT Bytes Option

namespace Reader

open List

variable {α β : Type}

def take (n : ℕ) : Reader Bytes := fun bytes =>
  if n ≤ bytes.length then some (bytes.take n, bytes.drop n) else none

/-- The next bytes, with the number of them. -/
def octets (n : ℕ) : Reader (Octets n) := fun bytes =>
  if h : n ≤ bytes.length then some (⟨bytes.take n, length_take_of_le h⟩, bytes.drop n)
  else none

def number (width : ℕ) : Reader ℕ := do
  let bytes ← take width
  return BigEndian.decode bytes

def ofOption (a : Option α) : Reader α := fun bytes =>
  a.map fun a => (a, bytes)

/-- Go on only if a condition holds. -/
def ensure (p : Prop) [Decidable p] : Reader Unit := fun bytes =>
  if p then some ((), bytes) else none

/-! ### What a reader reads -/

/-- The reader takes exactly these bytes, for that value. -/
def Reads (r : Reader α) (bytes : Bytes) (a : α) : Prop :=
  ∀ rest, r (bytes ++ rest) = some (a, rest)

/-- The reader refuses whatever starts with these bytes. -/
def Refuses (r : Reader α) (bytes : Bytes) : Prop :=
  ∀ rest, r (bytes ++ rest) = none

theorem Reads.pure (a : α) :
  Reads (pure a) [] a
  := fun _ => rfl

variable {r : Reader α} {f : α → Reader β} {bytes : Bytes} {a : α} {b : β}

section

variable {bytes' : Bytes} (hr : Reads r bytes a)
include hr

theorem Reads.bind_append (rest : Bytes) :
  (r >>= f) (bytes ++ bytes' ++ rest) = f a (bytes' ++ rest)
  := by
  change (r (bytes ++ bytes' ++ rest)).bind (fun p => f p.1 p.2) = _
  rw [append_assoc, hr]
  rfl

theorem Reads.bind (hf : Reads (f a) bytes' b) :
  Reads (r >>= f) (bytes ++ bytes') b
  := fun rest => (hr.bind_append rest).trans (hf rest)

theorem Reads.bind_refuses (hf : Refuses (f a) bytes') :
  Refuses (r >>= f) (bytes ++ bytes')
  := fun rest => (hr.bind_append rest).trans (hf rest)

end

theorem Reads.bind_refuses_nil (hr : Reads r [] a) (hf : Refuses (f a) bytes) :
  Refuses (r >>= f) bytes
  := hr.bind_refuses hf

theorem Refuses.bind (hr : Refuses r bytes) (f : α → Reader β) :
  Refuses (r >>= f) bytes
  := by
  intro rest
  change (r (bytes ++ rest)).bind (fun p => f p.1 p.2) = none
  rw [hr]
  rfl

theorem Reads.bind_nil (hr : Reads r [] a) (hf : Reads (f a) bytes b) :
  Reads (r >>= f) bytes b
  := hr.bind hf

theorem Reads.bind_last (hr : Reads r bytes a) (hf : Reads (f a) [] b) :
  Reads (r >>= f) bytes b
  := by
  have hboth := hr.bind hf
  rwa [append_nil] at hboth

theorem reads_take {n : ℕ} (h : bytes.length = n) :
  Reads (take n) bytes bytes
  := by
  intro rest
  rw [take, if_pos (by simp [← h]), take_left' h, drop_left' h]

theorem reads_octets {n : ℕ} (bytes : Octets n) :
  Reads (octets n) bytes.1 bytes
  := by
  intro rest
  have hle : n ≤ (bytes.1 ++ rest).length := by simp [bytes.2]
  rw [octets, dif_pos hle]
  simp only [take_left' bytes.2, drop_left' bytes.2]

theorem reads_number {width n : ℕ} (h : n < 256 ^ width) :
  Reads (number width) (BigEndian.encode width n) n
  := by
  apply (reads_take (BigEndian.length_encode width n)).bind_last
  intro rest
  rw [BigEndian.decode_encode_of_lt h]
  rfl

theorem reads_ofOption (a : α) :
  Reads (ofOption (some a)) [] a
  := fun _ => rfl

theorem reads_ensure {p : Prop} [Decidable p] (h : p) :
  Reads (ensure p) [] ()
  := fun _ => if_pos h

theorem refuses_ensure {p : Prop} [Decidable p] (h : ¬ p) (bytes : Bytes) :
  Refuses (ensure p) bytes
  := fun _ => if_neg h

/-! ### One item after another -/

/-- The items of some bytes, up to a number of them. -/
def walkFrom (r : Reader α) : ℕ → Bytes → Option (List α)
  | _, [] => some []
  | 0, _ :: _ => none
  | fuel + 1, bytes => (r bytes).bind fun (a, rest) => (walkFrom r fuel rest).map (a :: ·)

/-- The items of some bytes, if they leave nothing over. -/
def walk (r : Reader α) (bytes : Bytes) : Option (List α) :=
  walkFrom r bytes.length bytes

variable {r : Reader α} {encode : α → Bytes}

theorem walkFrom_of_ne_nil (h : bytes ≠ []) (fuel : ℕ) :
  walkFrom r (fuel + 1) bytes
    = (r bytes).bind fun (a, rest) => (walkFrom r fuel rest).map (a :: ·)
  := by
  cases bytes with
  | nil => exact absurd rfl h
  | cons => rfl

theorem walk_of_refuses (hne : bytes ≠ []) (h : Refuses r bytes) :
  walk r bytes = none
  := by
  obtain ⟨fuel, hfuel⟩ := Nat.exists_eq_succ_of_ne_zero (length_pos_iff.mpr hne).ne'
  have hnone := h []
  rw [append_nil] at hnone
  rw [walk, hfuel, walkFrom_of_ne_nil hne, hnone]
  rfl

variable {items : List α}

theorem walkFrom_flatMap_iff {fuel : ℕ} (hfuel : items.length ≤ fuel)
    (hne : ∀ a ∈ items, encode a ≠ [])
    (hread : ∀ a ∈ items, Reads r (encode a) a ∨ Refuses r (encode a)) :
  walkFrom r fuel (items.flatMap encode) = some items ↔ ∀ a ∈ items, Reads r (encode a) a
  := by
  induction items generalizing fuel with
  | nil => cases fuel <;> simp [walkFrom]
  | cons a items ih =>
  obtain ⟨fuel, rfl⟩ := Nat.exists_eq_add_of_lt (Nat.lt_of_succ_le hfuel)
  have hne' : encode a ++ items.flatMap encode ≠ [] :=
    append_ne_nil_of_left_ne_nil (hne a mem_cons_self) _
  have ih' := @ih (items.length + fuel) (by omega)
    (fun b hb => hne b (mem_cons_of_mem _ hb))
    (fun b hb => hread b (mem_cons_of_mem _ hb))
  rw [flatMap_cons, walkFrom_of_ne_nil hne']
  obtain hreads | hrefuses := hread a mem_cons_self
  · rw [hreads, Option.bind_some]
    simp only [forall_mem_cons, hreads, true_and, ← ih']
    rw [Option.map_eq_some_iff]
    constructor
    · rintro ⟨items', hwalk, heq⟩
      injection heq with _ heq
      exact hwalk.trans (congrArg some heq)
    · intro hwalk
      exact ⟨items, hwalk, rfl⟩
  · rw [hrefuses]
    constructor
    · intro h
      cases h
    intro hall
    have hsome := hall a mem_cons_self []
    rw [hrefuses] at hsome
    cases hsome

variable (hne : ∀ a ∈ items, encode a ≠ [])
include hne

theorem length_le_flatMap :
  items.length ≤ (items.flatMap encode).length
  := by
  induction items with
  | nil => exact le_rfl
  | cons a items ih =>
  have ha := length_pos_iff.mpr (hne a mem_cons_self)
  have hitems := ih fun b hb => hne b (mem_cons_of_mem _ hb)
  rw [flatMap_cons, length_append, length_cons]
  omega

theorem walk_flatMap_iff (hread : ∀ a ∈ items, Reads r (encode a) a ∨ Refuses r (encode a)) :
  walk r (items.flatMap encode) = some items ↔ ∀ a ∈ items, Reads r (encode a) a
  := walkFrom_flatMap_iff (length_le_flatMap hne) hne hread

theorem walk_flatMap (hread : ∀ a ∈ items, Reads r (encode a) a) :
  walk r (items.flatMap encode) = some items
  := (walk_flatMap_iff hne fun a ha => .inl (hread a ha)).mpr hread

end Reader
