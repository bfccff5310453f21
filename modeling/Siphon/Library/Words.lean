import Siphon.Library.Text

/-!
# Trimming and words

A list trimmed of the elements satisfying a predicate, and its words, the runs between those
elements.
-/

namespace Slice

open List

variable {α : Type} {p : α → Bool}

/-- Cut at the first element satisfying the predicate. -/
def splitOnceP (p : α → Bool) (l : List α) : Option (List α × List α) :=
  match l.dropWhile fun a => !p a with
  | [] => none
  | _ :: rest => some (l.takeWhile fun a => !p a, rest)

/-! ### Trimming -/

section

variable (p : α → Bool) (l : List α)

theorem exists_eq_append_trimMatches :
  ∃ u v, l = u ++ trimMatches p l ++ v ∧ (∀ a ∈ u, p a = true) ∧ ∀ a ∈ v, p a = true
  := by
  use l.takeWhile p, (l.dropWhile p).rtakeWhile p
  apply And.intro
  · rw [trimMatches, append_assoc, rdropWhile_append_rtakeWhile, takeWhile_append_dropWhile]
  · apply And.intro fun a ha => mem_takeWhile_imp ha
    intro a ha
    apply mem_rtakeWhile_imp ha

theorem getLast_trimMatches (h : trimMatches p l ≠ []) :
  p ((trimMatches p l).getLast h) = false
  := by
  have hlast := rdropWhile_last_not p (l.dropWhile p) h
  simpa [trimMatches] using hlast

theorem head?_trimMatches :
  ∀ a ∈ (trimMatches p l).head?, p a = false
  := by
  intro a ha
  have hdrop : a ∈ (l.dropWhile p).head? := by
    obtain ⟨t, ht⟩ := rdropWhile_prefix p (l := l.dropWhile p)
    rw [trimMatches] at ha
    rw [← ht, List.head?_append, Option.mem_def.mp ha]
    rfl
  apply head?_dropWhile a hdrop

end

variable {l : List α}

theorem trimMatches_eq_self (hhead : ∀ a ∈ l.head?, p a = false)
    (hlast : ∀ a ∈ l.getLast?, p a = false) :
  trimMatches p l = l
  := by
  have hdrop : l.dropWhile p = l := by
    cases l with
    | nil => rfl
    | cons a l => rw [dropWhile_cons, hhead a rfl, if_neg (by simp)]
  rw [trimMatches, hdrop, rdropWhile_eq_self_iff]
  intro hl
  simp [hlast _ (List.getLast?_eq_getLast_of_ne_nil hl)]

@[simp] theorem trimMatches_trimMatches (l : List α) :
  trimMatches p (trimMatches p l) = trimMatches p l
  := by
  apply trimMatches_eq_self (head?_trimMatches p l)
  intro a ha
  obtain ⟨hne, rfl⟩ := mem_getLast?_eq_getLast ha
  apply getLast_trimMatches

theorem trimMatches_sublist (l : List α) :
  List.Sublist (trimMatches p l) l
  := by
  obtain ⟨u, v, hl, -, -⟩ := exists_eq_append_trimMatches p l
  nth_rewrite 2 [hl]
  exact (sublist_append_right u _).trans (sublist_append_left _ v)

variable {a : α}

theorem mem_of_mem_trimMatches (h : a ∈ trimMatches p l) :
  a ∈ l
  := (trimMatches_sublist l).subset h

theorem trimMatches_append_right {v : List α} (hv : ∀ a ∈ v, p a = true) :
  trimMatches p (l ++ v) = trimMatches p l
  := by
  induction v using List.reverseRecOn with
  | nil => simp
  | append_singleton v a ih =>
  have ha : p a = true := hv a (by simp)
  rw [← ih fun b hb => hv b (by simp [hb]), ← append_assoc, trimMatches, trimMatches,
    dropWhile_append]
  split
  · rename_i h
    rw [List.isEmpty_iff] at h
    simp [h, ha]
  · rw [rdropWhile_concat, ha, if_pos rfl]

theorem trimMatches_map {β : Type} (p : β → Bool) (f : α → β) (l : List α) :
  trimMatches p (l.map f) = (trimMatches (p ∘ f) l).map f
  := by
  rw [trimMatches, trimMatches, dropWhile_map, List.rdropWhile, List.rdropWhile,
    ← map_reverse, dropWhile_map, map_reverse]

/-! ### Words -/

/-- The non-empty runs between the elements satisfying `p`. -/
def words (p : α → Bool) (l : List α) : List (List α) :=
  (l.splitOnP p).filter fun w => !w.isEmpty

theorem words_append_cons (ha : p a = true) (x y : List α) :
  words p (x ++ a :: y) = words p x ++ words p y
  := by
  rw [words, splitOnP_append_cons x y ha, filter_append, words, words]

@[simp] theorem words_nil :
  words p [] = []
  := by
  simp [words, splitOnP_nil]

theorem words_eq_nil {u : List α} (hu : ∀ a ∈ u, p a = true) :
  words p u = []
  := by
  induction u with
  | nil => apply words_nil
  | cons a u ih =>
  have h := words_append_cons (hu a mem_cons_self) [] u
  rw [nil_append] at h
  rw [h, ih fun b hb => hu b (mem_cons_of_mem _ hb), words_nil]
  rfl

theorem words_append_left {u : List α} (hu : ∀ a ∈ u, p a = true) (x : List α) :
  words p (u ++ x) = words p x
  := by
  cases u using List.reverseRecOn with
  | nil => rfl
  | append_singleton u a =>
  rw [append_assoc, singleton_append, words_append_cons (hu a (by simp)),
    words_eq_nil fun b hb => hu b (by simp [hb]), nil_append]

theorem words_append_right {v : List α} (hv : ∀ a ∈ v, p a = true) (x : List α) :
  words p (x ++ v) = words p x
  := by
  cases v with
  | nil => rw [append_nil]
  | cons a v =>
  rw [words_append_cons (hv a mem_cons_self),
    words_eq_nil fun b hb => hv b (mem_cons_of_mem _ hb), append_nil]

theorem words_dropWhile {q : α → Bool} (hq : ∀ a, q a = true → p a = true) (x : List α) :
  words p (x.dropWhile q) = words p x
  := by
  have h := words_append_left (p := p) (u := x.takeWhile q)
    (fun a ha => hq a (mem_takeWhile_imp ha)) (x.dropWhile q)
  rw [takeWhile_append_dropWhile] at h
  apply h.symm

theorem words_append_flatMap {β : Type} (ha : p a = true) (g : β → List α) (x : List α)
    (l : List β) :
  words p (x ++ l.flatMap fun b => a :: g b) = words p x ++ l.flatMap fun b => words p (g b)
  := by
  induction l generalizing x with
  | nil => simp
  | cons b l ih =>
  rw [flatMap_cons, cons_append, words_append_cons ha, ih, flatMap_cons]

variable {w : List α}

theorem words_of_forall_not (hne : w ≠ []) (hw : ∀ a ∈ w, p a = false) :
  words p w = [w]
  := by
  rw [words, splitOnP_eq_singleton hw]
  simp [hne]

theorem words_append_of_head? {r : List α} (hne : w ≠ []) (hw : ∀ a ∈ w, p a = false)
    (hr : ∀ a ∈ r.head?, p a = true) :
  words p (w ++ r) = w :: words p r
  := by
  cases r with
  | nil => rw [append_nil, words_of_forall_not hne hw, words_nil]
  | cons a r =>
  have ha : p a = true := hr a rfl
  have htail := words_append_cons ha [] r
  rw [nil_append] at htail
  rw [words_append_cons ha, words_of_forall_not hne hw, htail, words_nil]
  rfl

theorem words_cons_ne_nil (ha : p a = false) (l : List α) :
  words p (a :: l) ≠ []
  := by
  have hsplit := takeWhile_append_dropWhile (p := fun b => !p b) (l := l)
  have hw : ∀ b ∈ a :: l.takeWhile (fun b => !p b), p b = false := by
    intro b hb
    rcases mem_cons.mp hb with rfl | hb
    · apply ha
    · simpa using mem_takeWhile_imp hb
  have hr : ∀ b ∈ (l.dropWhile fun b => !p b).head?, p b = true := by
    intro b hb
    simpa using head?_dropWhile b hb
  have h := words_append_of_head? (by simp) hw hr
  rw [cons_append, hsplit] at h
  simp [h]

theorem words_ne_nil (h : a ∈ l) (ha : p a = false) :
  words p l ≠ []
  := by
  have hsplit := takeWhile_append_dropWhile (p := p) (l := l)
  rw [← hsplit, words_append_left fun b hb => mem_takeWhile_imp hb]
  cases hd : l.dropWhile p with
  | nil =>
    rw [dropWhile_eq_nil_iff] at hd
    simp [hd a h] at ha
  | cons b r =>
    apply words_cons_ne_nil
    apply head?_dropWhile (l := l)
    rw [hd]
    rfl

theorem words_trimMatches (l : List α) :
  words p (trimMatches p l) = words p l
  := by
  obtain ⟨u, v, hl, hu, hv⟩ := exists_eq_append_trimMatches p l
  conv_rhs => rw [hl, words_append_right hv, words_append_left hu]

theorem trimMatches_eq_of_words (h : words p l = [w]) :
  trimMatches p l = w
  := by
  rw [← words_trimMatches] at h
  have hhead := head?_trimMatches p l
  have hlast := getLast_trimMatches p l
  generalize trimMatches p l = t at h hhead hlast
  by_cases hsep : ∃ a ∈ t, p a = true
  · obtain ⟨a, ha, hp⟩ := hsep
    obtain ⟨x, y, rfl⟩ := append_of_mem ha
    have hx : words p x ≠ [] := by
      cases x with
      | nil => simp [hhead a rfl] at hp
      | cons b x => apply words_cons_ne_nil (hhead b rfl)
    have hy : words p y ≠ [] := by
      cases y using List.reverseRecOn with
      | nil =>
        have hb := hlast (by simp)
        simp [hp] at hb
      | append_singleton y b =>
        apply words_ne_nil (a := b) (by simp)
        have hb := hlast (by simp)
        simpa using hb
    rw [words_append_cons hp] at h
    have hlen := congrArg List.length h
    have := length_pos_of_ne_nil hx
    have := length_pos_of_ne_nil hy
    simp at hlen
    omega
  · have hne : t ≠ [] := by
      rintro rfl
      simp at h
    rw [words_of_forall_not hne (by simpa using hsep)] at h
    simpa using h

theorem trimMatches_congr {k : List α} (hwords : words p l = words p k) (hl : trimMatches p l = w)
    (hne : w ≠ []) (hw : ∀ a ∈ w, p a = false) :
  trimMatches p k = w
  := by
  apply trimMatches_eq_of_words
  rw [← hwords, ← words_trimMatches, hl, words_of_forall_not hne hw]

end Slice
