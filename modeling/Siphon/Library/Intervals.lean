import Mathlib.Data.UInt

/-!
# Lists of intervals

Intervals of a linear order that lie apart, in order, are searched by halving.
-/

namespace Intervals

open List

variable {α β : Type}

/-! ### Halving -/

/-- The search for the last index that passes the test, from a base on over a number of indices. -/
def narrow (p : ℕ → Bool) : ℕ → ℕ → ℕ → ℕ
  | 0, base, _ => base
  | fuel + 1, base, size =>
    if size > 1 then
      let half := size / 2
      let mid := base + half
      narrow p fuel (if p mid then mid else base) (size - half)
    else base

/-- How many elements come before the first that fails the test, in a list where none passes it
after one that fails. -/
def partitionPoint (p : β → Bool) (l : List β) : ℕ :=
  if l.length = 0 then 0
  else
    let passes := fun index => l[index]?.any p
    let base := narrow passes l.length 0 l.length
    if passes base then base + 1 else base

theorem narrow_spec {p : ℕ → Bool} {point fuel base size : ℕ}
    (hpoint : ∀ i < base + size, p i = true ↔ i < point) (hsize : 0 < size)
    (hfuel : size ≤ fuel + 1) (hbase : base = 0 ∨ base < point) (hend : point ≤ base + size) :
  let found := narrow p fuel base size
  found < base + size ∧ (found = 0 ∨ found < point) ∧ point ≤ found + 1
  := by
  induction fuel generalizing base size with
  | zero =>
    rw [narrow]
    omega
  | succ fuel ih =>
    rw [narrow]
    split
    · have hmid := hpoint (base + size / 2) (by omega)
      dsimp only
      split
      · rename_i hpass
        have hlt := hmid.mp hpass
        have hnext := @ih (base + size / 2) (size - size / 2)
          (fun i hi => hpoint i (by omega)) (by omega) (by omega) (.inr hlt) (by omega)
        omega
      · rename_i hfail
        have hge : ¬ base + size / 2 < point := fun hlt => hfail (hmid.mpr hlt)
        have hnext := @ih base (size - size / 2)
          (fun i hi => hpoint i (by omega)) (by omega) (by omega) hbase (by omega)
        omega
    · omega

theorem partitionPoint_append {p : β → Bool} {a b : List β} (ha : ∀ x ∈ a, p x = true)
    (hb : ∀ x ∈ b, p x = false) :
  partitionPoint p (a ++ b) = a.length
  := by
  have hpoint : ∀ i < 0 + (a ++ b).length, ((a ++ b)[i]?.any p) = true ↔ i < a.length := by
    intro i hi
    by_cases hlt : i < a.length
    · have hget : (a ++ b)[i]? = some a[i] := by
        rw [List.getElem?_append_left hlt, List.getElem?_eq_getElem hlt]
      simp [hget, hlt, ha a[i] (getElem_mem hlt)]
    · rw [length_append] at hi
      have hlt' : i - a.length < b.length := by omega
      have hget : (a ++ b)[i]? = some b[i - a.length] := by
        rw [List.getElem?_append_right (by omega), List.getElem?_eq_getElem hlt']
      simp [hget, hlt, hb b[i - a.length] (getElem_mem hlt')]
  rw [partitionPoint]
  split
  · rename_i hnil
    rw [length_append] at hnil
    omega
  have hfound := narrow_spec hpoint (by omega) (Nat.le_succ _) (.inl rfl) (by simp)
  have hpass := hpoint (narrow (fun index => (a ++ b)[index]?.any p) (a ++ b).length 0
    (a ++ b).length) (by dsimp only at hfound; omega)
  dsimp only at hfound hpass ⊢
  split
  · rename_i hyes
    have := hpass.mp hyes
    omega
  · rename_i hno
    have : ¬ _ := fun hlt => hno (hpass.mpr hlt)
    omega

/-! ### Finding the interval of a key -/

section

variable [LinearOrder α] (first last : β → α)

/-- Each interval ends before the next one starts. -/
def Apart (l : List β) : Prop :=
  l.Pairwise fun a b => last a < first b

/-- The last interval that starts at or before the key, if it ends at or after it. -/
def locate (l : List β) (key : α) : Option β :=
  match partitionPoint (fun b => first b ≤ key) l with
  | 0 => none
  | index + 1 => l[index]?.filter fun b => key ≤ last b

variable {first last} {l : List β} {key : α} {b : β}

theorem Apart.exists_split (hapart : Apart first last l) (key : α)
    (hle : ∀ b ∈ l, first b ≤ last b) :
  ∃ before after, l = before ++ after ∧ (∀ b ∈ before, first b ≤ key) ∧ ∀ b ∈ after, key < first b
  := by
  induction l with
  | nil => exact ⟨[], [], rfl, nofun, nofun⟩
  | cons b l ih =>
  rw [forall_mem_cons] at hle
  obtain ⟨hhead, htail⟩ := pairwise_cons.mp hapart
  by_cases hb : first b ≤ key
  · obtain ⟨before, after, rfl, hbefore, hafter⟩ := ih htail hle.2
    refine ⟨b :: before, after, rfl, ?_, hafter⟩
    rw [forall_mem_cons]
    exact ⟨hb, hbefore⟩
  · refine ⟨[], b :: l, rfl, nofun, ?_⟩
    rw [forall_mem_cons]
    refine ⟨not_le.mp hb, ?_⟩
    intro c hc
    exact (not_le.mp hb).trans (hle.1.trans_lt (hhead c hc))

theorem locate_eq_some_iff (hapart : Apart first last l) (hle : ∀ b ∈ l, first b ≤ last b) :
  locate first last l key = some b ↔ b ∈ l ∧ first b ≤ key ∧ key ≤ last b
  := by
  obtain ⟨before, after, rfl, hbefore, hafter⟩ := hapart.exists_split key hle
  have hpoint : partitionPoint (fun b => first b ≤ key) (before ++ after) = before.length := by
    refine partitionPoint_append ?_ ?_
    · exact fun b hb => decide_eq_true (hbefore b hb)
    · exact fun b hb => decide_eq_false (not_le.mpr (hafter b hb))
  have hstart : ∀ b ∈ before ++ after, first b ≤ key → b ∈ before := by
    intro b hb hkey
    refine (mem_append.mp hb).resolve_right ?_
    intro hmem
    exact absurd hkey (not_le.mpr (hafter b hmem))
  rw [locate, hpoint]
  rcases eq_nil_or_concat before with rfl | ⟨init, held, rfl⟩
  · constructor
    · nofun
    · rintro ⟨hmem, hkey, -⟩
      exact absurd (hstart b hmem hkey) (not_mem_nil)
  rw [concat_eq_append] at hapart hstart ⊢
  have hget : ((init ++ [held]) ++ after)[init.length]? = some held := by simp
  rw [length_append, length_singleton]
  dsimp only
  rw [hget, Option.filter_eq_some_iff]
  constructor
  · rintro ⟨⟨⟩, hlast⟩
    exact ⟨by simp, hbefore b (by simp), of_decide_eq_true hlast⟩
  rintro ⟨hmem, hkey, hlast⟩
  rcases mem_append.mp (hstart b hmem hkey) with hinit | hheld
  · -- An earlier interval ends before the held one starts, which is at or before the key.
    have hlt : last b < first held := by
      have hpair := (pairwise_append.mp hapart).1
      exact (pairwise_append.mp hpair).2.2 b hinit held (by simp)
    exact absurd hlast (not_le.mpr (hlt.trans_le (hbefore held (by simp))))
  · obtain rfl := mem_singleton.mp hheld
    exact ⟨rfl, decide_eq_true hlast⟩

end

/-! ### Merging nested intervals -/

/-- Keep each element that the last kept one does not contain. -/
def absorb (contains : β → β → Bool) (l : List β) : List β :=
  l.foldl (fun kept b => if kept.getLast?.any (contains · b) then kept else kept ++ [b]) []

variable (contains : β → β → Bool)

theorem absorb_append_singleton (l : List β) (b : β) :
  absorb contains (l ++ [b])
    = if (absorb contains l).getLast?.any (contains · b) then absorb contains l
      else absorb contains l ++ [b]
  := by
  rw [absorb, foldl_append]
  rfl

theorem absorb_subset (l : List β) :
  ∀ b ∈ absorb contains l, b ∈ l
  := by
  induction l using List.reverseRecOn with
  | nil => nofun
  | append_singleton l b ih =>
  rw [absorb_append_singleton]
  intro c hc
  split at hc
  · exact mem_append_left _ (ih c hc)
  · rcases mem_append.mp hc with hc | hc
    · exact mem_append_left _ (ih c hc)
    · exact mem_append_right _ hc

theorem exists_mem_absorb {contains : β → β → Bool} (hrefl : ∀ b, contains b b = true)
    {l : List β} {b : β} (hb : b ∈ l) :
  ∃ held ∈ absorb contains l, contains held b = true
  := by
  induction l using List.reverseRecOn with
  | nil => cases hb
  | append_singleton l c ih =>
  rw [absorb_append_singleton]
  rcases mem_append.mp hb with hb | hb
  · obtain ⟨held, hmem, hheld⟩ := ih hb
    refine ⟨held, ?_, hheld⟩
    split
    · exact hmem
    · exact mem_append_left _ hmem
  · obtain rfl := mem_singleton.mp hb
    split
    · rename_i hany
      obtain ⟨held, hlast, hheld⟩ := (Option.any_eq_true _ _).mp hany
      exact ⟨held, mem_of_getLast? hlast, hheld⟩
    · exact ⟨b, by simp, hrefl b⟩

section

variable [LinearOrder α] {first last : β → α} {contains : β → β → Bool}

/-- Any two intervals are disjoint or nested. -/
def Laminar (first last : β → α) (l : List β) : Prop :=
  ∀ a ∈ l, ∀ b ∈ l, last a < first b ∨ last b < first a
    ∨ (first a ≤ first b ∧ last b ≤ last a) ∨ (first b ≤ first a ∧ last a ≤ last b)

/-- In the order of their starts, the wider first. -/
def Ordered (first last : β → α) (l : List β) : Prop :=
  l.Pairwise fun a b => first a < first b ∨ first a = first b ∧ last b ≤ last a

theorem apart_absorb (hcontains : ∀ a b, contains a b = true ↔ first a ≤ first b ∧ last b ≤ last a)
    {l : List β} (hle : ∀ b ∈ l, first b ≤ last b) (hlaminar : Laminar first last l)
    (hordered : Ordered first last l) :
  Apart first last (absorb contains l)
  := by
  induction l using List.reverseRecOn with
  | nil => exact List.Pairwise.nil
  | append_singleton l b ih =>
  obtain ⟨hinit, -, hbefore⟩ := pairwise_append.mp hordered
  have hkept := ih (fun c hc => hle c (mem_append_left _ hc))
    (fun a ha c hc => hlaminar a (mem_append_left _ ha) c (mem_append_left _ hc)) hinit
  rw [absorb_append_singleton]
  split
  · exact hkept
  rename_i hno
  refine pairwise_append.mpr ⟨hkept, pairwise_singleton _ _, ?_⟩
  intro held hheld c hc
  obtain rfl := mem_singleton.mp hc
  rcases eq_nil_or_concat (absorb contains l) with hnil | ⟨init, tip, hend⟩
  · rw [hnil] at hheld
    cases hheld
  rw [concat_eq_append] at hend
  have hmem : tip ∈ l := absorb_subset contains l tip (by simp [hend])
  have hlast : last tip < first c := by
    have hcases := hlaminar tip (mem_append_left _ hmem) c (by simp)
    grind
  rw [hend] at hkept hheld
  rcases mem_append.mp hheld with hheld | hheld
  · have hlt := (pairwise_append.mp hkept).2.2 held hheld tip (by simp)
    exact hlt.trans ((hle tip (mem_append_left _ hmem)).trans_lt hlast)
  · obtain rfl := mem_singleton.mp hheld
    exact hlast

end

end Intervals
