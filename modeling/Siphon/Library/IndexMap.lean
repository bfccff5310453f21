import Siphon.Library.Text

/-!
# Insertion-ordered maps

A map that remembers the order its keys were first inserted in.
-/

/-- An insertion-ordered map: a list of entries with distinct keys. -/
structure IndexMap (κ ν : Type) where
  entries : List (κ × ν)
  nodup : (entries.map Prod.fst).Nodup
deriving DecidableEq

namespace IndexMap

open List

variable {κ ν : Type} [DecidableEq κ]

def empty : IndexMap κ ν :=
  ⟨[], nodup_nil⟩

def get? (m : IndexMap κ ν) (k : κ) : Option ν :=
  m.entries.lookup k

/-- The entries with `f` applied to the value of `k`, or with the value `v` for it at the
end. -/
def upsertList (k : κ) (v : ν) (f : ν → ν) : List (κ × ν) → List (κ × ν)
  | [] => [(k, v)]
  | e :: es => if e.1 = k then (k, f e.2) :: es else e :: upsertList k v f es

variable {k : κ} {es : List (κ × ν)} {v : ν} {f : ν → ν}

theorem mem_map_upsertList {j : κ} :
  j ∈ (upsertList k v f es).map Prod.fst ↔ j = k ∨ j ∈ es.map Prod.fst
  := by
  induction es with
  | nil => simp [upsertList]
  | cons e es ih =>
  rw [upsertList]
  split
  · rename_i he
    simp [he]
  · simp only [map_cons, mem_cons, ih]
    tauto

theorem mem_upsertList {e : κ × ν} (h : e ∈ upsertList k v f es) :
  e = (k, v) ∨ (∃ u, (k, u) ∈ es ∧ e = (k, f u)) ∨ e ∈ es
  := by
  induction es with
  | nil =>
    apply Or.inl
    simpa [upsertList] using h
  | cons x es ih =>
    rw [upsertList] at h
    split at h
    · rename_i hx
      rcases mem_cons.mp h with rfl | h
      · apply Or.inr (.inl ⟨x.2, by simp [← hx], rfl⟩)
      · apply Or.inr (.inr (mem_cons_of_mem _ h))
    · rcases mem_cons.mp h with rfl | h
      · simp
      rcases ih h with h | ⟨u, hu, h⟩ | h
      · apply Or.inl h
      · apply Or.inr (.inl ⟨u, mem_cons_of_mem _ hu, h⟩)
      · apply Or.inr (.inr (mem_cons_of_mem _ h))

theorem nodup_upsertList (h : (es.map Prod.fst).Nodup) :
  ((upsertList k v f es).map Prod.fst).Nodup
  := by
  induction es with
  | nil => simp [upsertList]
  | cons e es ih =>
  rw [map_cons, nodup_cons] at h
  rw [upsertList]
  split
  · rename_i he
    rw [map_cons, nodup_cons, ← he]
    apply h
  rename_i he
  rw [map_cons, nodup_cons, mem_map_upsertList]
  apply And.intro _ (ih h.2)
  rintro (hk | hm)
  · apply he hk
  · apply h.1 hm

variable (m : IndexMap κ ν)

/-- Apply `f` to the value of `k` in its place, or insert `v` for it at the end. -/
def upsert (k : κ) (v : ν) (f : ν → ν) : IndexMap κ ν :=
  ⟨upsertList k v f m.entries, nodup_upsertList m.nodup⟩

/-- Set the value of `k`, keeping its place if it has one. -/
def insert (k : κ) (v : ν) : IndexMap κ ν :=
  m.upsert k v fun _ => v

/-- Remove `k`, keeping the order of the others. -/
def shiftRemove (k : κ) : IndexMap κ ν :=
  ⟨m.entries.filter fun e => e.1 ≠ k, m.nodup.sublist (filter_sublist.map _)⟩

/-- Insert `v` for `k` at the end unless it has a value. -/
def orInsert (k : κ) (v : ν) : IndexMap κ ν :=
  m.upsert k v id

def insertAll (ks : List κ) (v : ν) : IndexMap κ ν :=
  ks.foldl (fun m k => m.insert k v) m

def removeAll (ks : List κ) : IndexMap κ ν :=
  ks.foldl shiftRemove m

/-- Keep the entries whose value satisfies `p`. -/
def retain (p : ν → Bool) : IndexMap κ ν :=
  ⟨m.entries.filter fun e => p e.2, m.nodup.sublist (filter_sublist.map _)⟩

theorem map_fst_modifyList (k : κ) (f : ν → ν) (es : List (κ × ν)) :
  (es.map fun e => if e.1 = k then (e.1, f e.2) else e).map Prod.fst = es.map Prod.fst
  := by
  rw [map_map]
  apply map_congr_left
  intro e _
  dsimp only [Function.comp]
  split <;> rfl

/-- Apply `f` to the value of `k` if it has one. -/
def modify (k : κ) (f : ν → ν) : IndexMap κ ν where
  entries := m.entries.map fun e => if e.1 = k then (e.1, f e.2) else e
  nodup := by
    rw [map_fst_modifyList]
    exact m.nodup

def mapValues (f : ν → ν) : IndexMap κ ν where
  entries := m.entries.map fun e => (e.1, f e.2)
  nodup := by
    rw [map_map]
    exact m.nodup

def count (p : ν → Bool) : ℕ :=
  m.entries.countP fun e => p e.2

/-- Add entries that pass a test, combined with the value their key has. -/
def merge (keep : κ → ν → Bool) (f : ν → ν → ν) (es : List (κ × ν)) :
    IndexMap κ ν :=
  es.foldl (fun m e => if keep e.1 e.2 then m.upsert e.1 e.2 (f · e.2) else m) m

/-- Add entries, each in place of the value its key has. -/
def extend (es : List (κ × ν)) : IndexMap κ ν :=
  m.merge (fun _ _ => true) (fun _ v => v) es

/-- The elements of a list under each of their keys, in the order of the list. -/
def groupBy {α : Type} (keys : α → List κ) (l : List α) : IndexMap κ (List α) :=
  l.foldl (fun m a => (keys a).foldl (fun m k => m.upsert k [a] (· ++ [a])) m) empty

/-! ### What a key is mapped to -/

@[simp] theorem get?_empty (k : κ) :
  (empty : IndexMap κ ν).get? k = none
  := rfl

theorem lookup_cons_eq (j i : κ) (u : ν) (es : List (κ × ν)) :
  ((i, u) :: es).lookup j = if j = i then some u else es.lookup j
  := by
  rw [lookup_cons]
  by_cases h : j = i
  · simp [h]
  · have hb : (j == i) = false := beq_false_of_ne h
    simp [h, hb]

theorem lookup_upsertList (k j : κ) (v : ν) (f : ν → ν) (es : List (κ × ν)) :
  (upsertList k v f es).lookup j = if j = k then some ((es.lookup k).elim v f) else es.lookup j
  := by
  induction es with
  | nil => simp [upsertList, lookup_cons_eq]
  | cons e es ih =>
  obtain ⟨i, u⟩ := e
  rw [upsertList]
  by_cases hi : i = k
  · subst hi
    by_cases h : j = i <;> simp [h, lookup_cons_eq]
  have hki : k ≠ i := Ne.symm hi
  by_cases hj : j = i
  · simp [hi, hj]
  · simp [hi, hj, hki, lookup_cons_eq, ih]

variable (m : IndexMap κ ν)

theorem get?_upsert (k j : κ) (v : ν) (f : ν → ν) :
  (m.upsert k v f).get? j = if j = k then some ((m.get? k).elim v f) else m.get? j
  := lookup_upsertList k j v f m.entries

theorem get?_insert (k j : κ) (v : ν) :
  (m.insert k v).get? j = if j = k then some v else m.get? j
  := by
  rw [insert, get?_upsert]
  cases m.get? k <;> rfl

theorem upsertList_append (ds : List (κ × ν)) (h : k ∉ es.map Prod.fst) :
  upsertList k v f (es ++ ds) = es ++ upsertList k v f ds
  := by
  induction es with
  | nil => rfl
  | cons e es ih =>
  rw [map_cons, mem_cons, not_or] at h
  rw [cons_append, upsertList, if_neg (Ne.symm h.1), ih h.2, cons_append]

variable {m : IndexMap κ ν}

theorem get?_eq_some_iff :
  m.get? k = some v ↔ (k, v) ∈ m.entries
  := by
  obtain ⟨es, hes⟩ := m
  rw [get?]
  induction es with
  | nil => simp
  | cons e es ih =>
  obtain ⟨i, u⟩ := e
  rw [map_cons, nodup_cons] at hes
  rw [lookup_cons_eq, mem_cons, Prod.mk.injEq]
  split
  · rename_i hk
    subst hk
    have hnot : (k, v) ∉ es := fun h => hes.1 (mem_map.mpr ⟨_, h, rfl⟩)
    simp [hnot, eq_comm]
  · rename_i hk
    simp [hk, ih hes.2]

theorem eq_empty_of_get? (h : ∀ k, m.get? k = none) :
  m = empty
  := by
  obtain ⟨es, hes⟩ := m
  cases es with
  | nil => rfl
  | cons e es =>
  have hsome : IndexMap.get? ⟨e :: es, hes⟩ e.1 = some e.2 := by
    rw [get?_eq_some_iff]
    exact mem_cons_self
  rw [h] at hsome
  cases hsome

section

variable (m : IndexMap κ ν)

theorem get?_shiftRemove (k j : κ) :
  (m.shiftRemove k).get? j = if j = k then none else m.get? j
  := by
  apply Option.ext
  intro v
  rw [get?_eq_some_iff, shiftRemove, mem_filter, ← get?_eq_some_iff]
  by_cases h : j = k <;> simp [h]

theorem get?_modify (k j : κ) (f : ν → ν) :
  (m.modify k f).get? j = if j = k then (m.get? k).map f else m.get? j
  := by
  obtain ⟨es, hes⟩ := m
  simp only [get?, modify]
  clear hes
  induction es with
  | nil => simp
  | cons e es ih =>
  obtain ⟨i, u⟩ := e
  rw [map_cons]
  by_cases hi : i = k
  · subst hi
    rw [if_pos rfl, lookup_cons_eq, lookup_cons_eq, lookup_cons_eq, ih]
    by_cases hj : j = i <;> simp [hj]
  · rw [if_neg hi, lookup_cons_eq, lookup_cons_eq, lookup_cons_eq, ih, if_neg (Ne.symm hi)]
    by_cases hj : j = i
    · subst hj
      simp [hi]
    · simp [hj]

theorem get?_mapValues (f : ν → ν) (k : κ) :
  (m.mapValues f).get? k = (m.get? k).map f
  := by
  obtain ⟨es, hes⟩ := m
  simp only [get?, mapValues]
  clear hes
  induction es with
  | nil => rfl
  | cons e es ih =>
  rw [map_cons, lookup_cons_eq, lookup_cons_eq, ih]
  split <;> rfl

theorem get?_orInsert (k j : κ) (v : ν) :
  (m.orInsert k v).get? j = if j = k then some ((m.get? k).getD v) else m.get? j
  := by
  rw [orInsert, get?_upsert]
  cases m.get? k <;> rfl

theorem get?_insertAll (ks : List κ) (v : ν) (j : κ) :
  (m.insertAll ks v).get? j = if j ∈ ks then some v else m.get? j
  := by
  induction ks generalizing m with
  | nil => rfl
  | cons k ks ih =>
  rw [insertAll, foldl_cons, ← insertAll, ih, get?_insert]
  by_cases hj : j = k <;> simp [hj]

theorem get?_removeAll (ks : List κ) (j : κ) :
  (m.removeAll ks).get? j = if j ∈ ks then none else m.get? j
  := by
  induction ks generalizing m with
  | nil => rfl
  | cons k ks ih =>
  rw [removeAll, foldl_cons, ← removeAll, ih, get?_shiftRemove]
  by_cases hj : j = k <;> simp [hj]

theorem get?_retain (p : ν → Bool) (k : κ) :
  (m.retain p).get? k = (m.get? k).filter p
  := by
  apply Option.ext
  intro v
  rw [get?_eq_some_iff, retain, mem_filter, ← get?_eq_some_iff, Option.filter_eq_some_iff]

theorem get?_merge (keep : κ → ν → Bool) (f : ν → ν → ν) (hnodup : (es.map Prod.fst).Nodup)
    (k : κ) :
  (m.merge keep f es).get? k =
    match es.lookup k with
    | none => m.get? k
    | some v => if keep k v then some ((m.get? k).elim v (f · v)) else m.get? k
  := by
  induction es generalizing m with
  | nil => rfl
  | cons e es ih =>
  obtain ⟨i, u⟩ := e
  rw [map_cons, nodup_cons] at hnodup
  have hnot : i ∉ es.map Prod.fst := hnodup.1
  rw [merge, foldl_cons, ← merge, ih _ hnodup.2, lookup_cons_eq]
  by_cases hk : k = i
  · subst hk
    have hnone : es.lookup k = none := by
      rw [lookup_eq_none_iff]
      intro e he
      rw [bne_iff_ne]
      rintro rfl
      apply hnot (mem_map_of_mem he)
    rw [hnone, if_pos rfl]
    dsimp only
    split
    · rw [get?_upsert, if_pos rfl]
    · rfl
  · have hsame : (if keep i u then m.upsert i u (f · u) else m).get? k = m.get? k := by
      split
      · rw [get?_upsert, if_neg hk]
      · rfl
    rw [if_neg hk]
    rw [hsame]

theorem get?_extend (hnodup : (es.map Prod.fst).Nodup) (k : κ) :
  (m.extend es).get? k = (es.lookup k).or (m.get? k)
  := by
  rw [extend, get?_merge m _ _ hnodup]
  cases es.lookup k with
  | none => rfl
  | some v => cases m.get? k <;> rfl

end

theorem get?_of_perm {n : IndexMap κ ν} (h : m.entries.Perm n.entries) (k : κ) :
  m.get? k = n.get? k
  := by
  apply Option.ext
  intro v
  rw [get?_eq_some_iff, get?_eq_some_iff, h.mem_iff]

/-! ### How many values satisfy a property -/

section

variable (m : IndexMap κ ν) (k : κ) (f : ν → ν) (p : ν → Bool)

theorem shiftRemove_modify :
  (m.modify k f).shiftRemove k = m.shiftRemove k
  := by
  simp only [shiftRemove, modify, mk.injEq]
  induction m.entries with
  | nil => rfl
  | cons e es ih =>
  rw [map_cons, filter_cons, filter_cons, ih]
  by_cases he : e.1 = k <;> simp [he]

theorem shiftRemove_insert (v : ν) :
  (m.insert k v).shiftRemove k = m.shiftRemove k
  := by
  simp only [shiftRemove, insert, upsert, mk.injEq]
  induction m.entries with
  | nil => simp [upsertList]
  | cons e es ih =>
  rw [upsertList]
  by_cases he : e.1 = k
  · simp [he]
  · rw [if_neg he, filter_cons, filter_cons, ih]

theorem count_shiftRemove :
  (m.shiftRemove k).count p + ((m.get? k).any p).toNat = m.count p
  := by
  obtain ⟨es, hes⟩ := m
  simp only [get?, shiftRemove, count]
  induction es with
  | nil => simp
  | cons e es ih =>
  obtain ⟨i, u⟩ := e
  rw [map_cons, nodup_cons] at hes
  rw [lookup_cons_eq, countP_cons]
  by_cases hi : i = k
  · subst hi
    have hrest : (es.filter fun e => e.1 ≠ i) = es := by
      apply filter_eq_self.mpr
      intro e he
      apply decide_eq_true
      rintro rfl
      exact hes.1 (mem_map.mpr ⟨e, he, rfl⟩)
    rw [if_pos rfl, filter_cons_of_neg (by simp), hrest]
    cases hu : p u <;> simp [hu]
  · have hrest := ih hes.2
    rw [if_neg (Ne.symm hi), filter_cons_of_pos (by simp [hi]), countP_cons]
    omega

theorem count_modify :
  (m.modify k f).count p + ((m.get? k).any p).toNat
    = m.count p + (((m.get? k).map f).any p).toNat
  := by
  have hafter := (m.modify k f).count_shiftRemove k p
  rw [shiftRemove_modify, get?_modify, if_pos rfl] at hafter
  rw [← hafter, ← m.count_shiftRemove k p]
  omega

theorem count_insert (v : ν) :
  (m.insert k v).count p + ((m.get? k).any p).toNat = m.count p + (p v).toNat
  := by
  have hafter := (m.insert k v).count_shiftRemove k p
  rw [shiftRemove_insert, get?_insert, if_pos rfl, Option.any_some] at hafter
  rw [← hafter, ← m.count_shiftRemove k p]
  omega

end

theorem count_pos {p : ν → Bool} (h : (m.get? k).any p) :
  0 < m.count p
  := by
  have hcount := m.count_shiftRemove k p
  rw [h] at hcount
  simp only [Bool.toNat_true] at hcount
  omega

/-! ### Groups -/

section

variable {α : Type} {keys : α → List κ}

def members (m : IndexMap κ (List α)) (k : κ) : List α :=
  (m.get? k).getD []

theorem mem_members_foldl_upsert (m : IndexMap κ (List α)) (ks : List κ) (a b : α) (j : κ) :
  b ∈ (ks.foldl (fun m k => m.upsert k [a] (· ++ [a])) m).members j ↔
    b ∈ m.members j ∨ j ∈ ks ∧ b = a
  := by
  induction ks generalizing m with
  | nil => simp
  | cons k ks ih =>
  rw [foldl_cons, ih]
  unfold members
  rw [get?_upsert]
  by_cases hj : j = k
  · subst hj
    cases m.get? j with
    | none => simp
    | some l =>
    simp
    tauto
  · simp [hj]

theorem mem_members_groupBy (l : List α) (a : α) (k : κ) :
  a ∈ (groupBy keys l).members k ↔ a ∈ l ∧ k ∈ keys a
  := by
  have hfold : ∀ m : IndexMap κ (List α),
      a ∈ (l.foldl (fun m a => (keys a).foldl (fun m k => m.upsert k [a] (· ++ [a])) m) m).members k
        ↔ a ∈ m.members k ∨ a ∈ l ∧ k ∈ keys a := by
    induction l with
    | nil => simp
    | cons b l ih =>
    intro m
    rw [foldl_cons, ih, mem_members_foldl_upsert, mem_cons]
    grind
  rw [groupBy, hfold empty]
  simp [members]

theorem get?_groupBy_ne_nil (l : List α) (k : κ) :
  (groupBy keys l).get? k ≠ some []
  := by
  apply List.foldlRecOn (motive := fun m : IndexMap κ (List α) => ∀ k, m.get? k ≠ some [])
  · simp
  intro m hm a _
  apply List.foldlRecOn (motive := fun m : IndexMap κ (List α) => ∀ k, m.get? k ≠ some []) _ _ hm
  intro m hm j _ k
  rw [get?_upsert]
  split
  · cases m.get? j <;> simp
  · apply hm

theorem mem_group_iff {l : List α} {group : κ × List α} (h : group ∈ (groupBy keys l).entries) :
  group.2 ≠ [] ∧ ∀ a, a ∈ group.2 ↔ a ∈ l ∧ group.1 ∈ keys a
  := by
  have hget : (groupBy keys l).get? group.1 = some group.2 := get?_eq_some_iff.mpr h
  apply And.intro (fun hnil => get?_groupBy_ne_nil l group.1 (hget.trans (congrArg some hnil)))
  intro a
  rw [← mem_members_groupBy, members, hget, Option.getD_some]

theorem exists_group {l : List α} {a : α} (ha : a ∈ l) (hk : k ∈ keys a) :
  ∃ group ∈ (groupBy keys l).entries, group.1 = k
  := by
  have hmem : a ∈ (groupBy keys l).members k := (mem_members_groupBy l a k).mpr ⟨ha, hk⟩
  rw [members] at hmem
  cases hget : (groupBy keys l).get? k with
  | none => simp [hget] at hmem
  | some group => exact ⟨(k, group), get?_eq_some_iff.mp hget, rfl⟩

end

end IndexMap
