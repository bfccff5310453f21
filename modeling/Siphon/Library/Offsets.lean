import Siphon.Library.Utf8

/-!
# Offsets into texts

A text is searched and cut by the offsets of its octets.
-/

variable {α : Type}

theorem Slice.length_le_of_occurrences {name a b a' b' : List α} {e : α} (he : e ∉ name)
    (heq : a ++ (name ++ [e]) ++ b = a' ++ (name ++ [e]) ++ b') (hlt : a.length < a'.length) :
  (a ++ (name ++ [e])).length ≤ a'.length
  := by
  by_contra hgt
  rw [List.length_append, List.length_append, List.length_singleton] at hgt
  have hfirst : (a ++ (name ++ [e]) ++ b)[a.length + name.length]? = some e := by
    simp
  have hsecond : (a' ++ (name ++ [e]) ++ b')[a.length + name.length]?
      = name[a.length + name.length - a'.length]? := by
    rw [List.append_assoc, List.getElem?_append_right (by omega), List.append_assoc,
      List.getElem?_append_left (by omega)]
  rw [heq, hsecond] at hfirst
  exact he (List.mem_of_getElem? hfirst)

theorem Slice.occurrence_of_append {x y b pat a : List α} (h : x ++ y = b ++ pat ++ a)
    (hle : x.length ≤ b.length) :
  ∃ b', b = x ++ b' ∧ y = b' ++ pat ++ a
  := by
  have hpre : x <+: b := by
    refine List.prefix_of_prefix_length_le (List.prefix_append x y) ?_ hle
    rw [h, List.append_assoc]
    apply List.prefix_append
  obtain ⟨b', rfl⟩ := hpre
  refine ⟨b', rfl, ?_⟩
  simpa using h

theorem Slice.occurrence_append_cons {u w a m b : List α} {s : α} (hs : s ∉ m)
    (h : u ++ s :: w = a ++ m ++ b) :
  (∃ b', u = a ++ m ++ b' ∧ b = b' ++ s :: w) ∨ ∃ a', w = a' ++ m ++ b ∧ a = u ++ s :: a'
  := by
  rcases List.append_eq_append_iff.mp h with ⟨z, hz, hrest⟩ | ⟨z, hz, hrest⟩
  · cases z with
    | nil => exact .inl ⟨[], by simpa using hz.symm, by simpa using hrest.symm⟩
    | cons e z =>
    obtain ⟨rfl, rfl⟩ := List.cons.inj hrest
    rcases List.append_eq_append_iff.mp hz with ⟨t, rfl, hm⟩ | ⟨t, rfl, ht⟩
    · exact absurd (hm ▸ List.mem_append_right t List.mem_cons_self) hs
    cases t with
    | nil =>
      rw [List.nil_append] at ht
      exact absurd (ht ▸ List.mem_cons_self) hs
    | cons e t =>
      obtain ⟨rfl, rfl⟩ := List.cons.inj ht
      exact .inr ⟨t, by simp, rfl⟩
  · exact .inl ⟨z, hz, hrest⟩

theorem Slice.occurrence_append_left {u w a m b : List α} (hm : m ≠ []) (hu : ∀ s ∈ u, s ∉ m)
    (h : u ++ w = a ++ m ++ b) :
  ∃ a', a = u ++ a' ∧ w = a' ++ m ++ b
  := by
  induction u generalizing a with
  | nil => exact ⟨a, rfl, h⟩
  | cons s u ih =>
  rw [List.forall_mem_cons] at hu
  rcases Slice.occurrence_append_cons (u := []) hu.1 h with ⟨b', hnil, -⟩ | ⟨a', hw, rfl⟩
  · have := congrArg List.length hnil
    have := List.length_pos_iff.mpr hm
    simp only [List.length_nil, List.length_append] at *
    omega
  · obtain ⟨a'', rfl, hrest⟩ := ih hu.2 hw
    exact ⟨a'', rfl, hrest⟩

namespace Utf8

def len (t : Text) : ℕ :=
  (encode t).length

/-- The text from an offset on, unless it is past the end or inside a character. -/
def sliceFrom : Text → ℕ → Option Text
  | t, 0 => some t
  | [], _ + 1 => none
  | c :: t, n + 1 => if n + 1 < c.utf8Size then none else sliceFrom t (n + 1 - c.utf8Size)

/-- The offset at which a pattern first occurs. -/
def find (pat t : Text) : Option ℕ :=
  (Slice.position pat t).map fun n => len (t.take n)

@[simp] theorem len_nil :
  len [] = 0
  := rfl

@[simp] theorem len_cons (c : Char) (t : Text) :
  len (c :: t) = c.utf8Size + len t
  := by
  simp [len]

@[simp] theorem len_append (s t : Text) :
  len (s ++ t) = len s + len t
  := by
  simp [len]

theorem append_inj_of_len {x y r s : Text} (h : x ++ r = y ++ s) (hlen : len x = len y) :
  x = y ∧ r = s
  := by
  induction x generalizing y with
  | nil =>
    cases y with
    | nil => exact ⟨rfl, h⟩
    | cons c y =>
    have := c.utf8Size_pos
    simp only [len_nil, len_cons] at hlen
    omega
  | cons c x ih =>
    cases y with
    | nil =>
      have := c.utf8Size_pos
      simp only [len_nil, len_cons] at hlen
      omega
    | cons d y =>
      simp only [List.cons_append, List.cons.injEq] at h
      obtain ⟨rfl, h⟩ := h
      obtain ⟨rfl, rfl⟩ := ih h (by simpa using hlen)
      exact ⟨rfl, rfl⟩

/-- The text from an offset on is what follows a part of that many octets. -/
theorem sliceFrom_eq_some_iff {t r : Text} {n : ℕ} :
  sliceFrom t n = some r ↔ ∃ x, t = x ++ r ∧ len x = n
  := by
  induction t generalizing n with
  | nil =>
    cases n with
    | zero =>
      constructor
      · rintro ⟨⟩
        exact ⟨[], rfl, rfl⟩
      · rintro ⟨x, hx, -⟩
        rw [List.nil_eq_append_iff.mp hx |>.2]
        rfl
    | succ n =>
      constructor
      · rintro ⟨⟩
      · rintro ⟨x, hx, hlen⟩
        rw [(List.nil_eq_append_iff.mp hx).1] at hlen
        cases hlen
  | cons c t ih =>
    cases n with
    | zero =>
      constructor
      · rintro ⟨⟩
        exact ⟨[], rfl, rfl⟩
      · rintro ⟨x, hx, hlen⟩
        obtain ⟨-, rfl⟩ := append_inj_of_len (y := []) hx.symm hlen
        rfl
    | succ n =>
      rw [sliceFrom]
      constructor
      · intro h
        split at h
        · cases h
        obtain ⟨x, rfl, hlen⟩ := ih.mp h
        refine ⟨c :: x, rfl, ?_⟩
        rw [len_cons]
        omega
      · rintro ⟨x, hx, hlen⟩
        cases x with
        | nil => cases hlen
        | cons d x =>
        obtain ⟨rfl, rfl⟩ := hx
        rw [len_cons] at hlen
        rw [if_neg (by omega)]
        exact ih.mpr ⟨x, rfl, by omega⟩

theorem find_cases (pat t : Text) :
  (∃ a b, t = a ++ pat ++ b ∧ find pat t = some (len a)
      ∧ ∀ a' b', t = a' ++ pat ++ b' → a.length ≤ a'.length)
    ∨ find pat t = none ∧ ∀ a b, t ≠ a ++ pat ++ b
  := by
  have hoccurs : ∀ a b, t = a ++ pat ++ b → ∃ m, Slice.position pat t = some m ∧ m ≤ a.length := by
    intro a b h
    refine Slice.exists_position_le ?_ ?_
    · simp [h]
    · simp [h]
  cases h : Slice.position pat t with
  | none =>
    refine .inr ⟨by simp [find, h], ?_⟩
    intro a b hab
    obtain ⟨m, hm, -⟩ := hoccurs a b hab
    rw [h] at hm
    cases hm
  | some n =>
    obtain ⟨b, hb, hn⟩ := Slice.take_append_of_position h
    refine .inl ⟨t.take n, b, hb, by simp [find, h], ?_⟩
    intro a' b' hab
    obtain ⟨m, hm, hle⟩ := hoccurs a' b' hab
    rw [h] at hm
    cases hm
    omega

theorem getLast?_encode_any {p : UInt8 → Bool} {q : Char → Bool} (h : Agree p q) (t : Text) :
  (encode t).getLast?.any p = t.getLast?.any q
  := by
  rcases List.eq_nil_or_concat t with rfl | ⟨s, c, rfl⟩
  · rfl
  rw [List.concat_eq_append, encode_append, encode_cons, encode_nil, List.append_nil,
    List.getLast?_append_of_ne_nil _ (String.utf8EncodeChar_ne_nil (c := c)),
    List.getLast?_append_of_ne_nil _ (List.cons_ne_nil c [])]
  by_cases hc : c.toNat < 128
  · simp [encodeChar_of_lt hc, h.ascii c hc]
  have hq : q c = false := h.char c (by omega)
  have hlast := List.getLast?_eq_some_getLast (String.utf8EncodeChar_ne_nil (c := c))
  have hp : p ((String.utf8EncodeChar c).getLast (String.utf8EncodeChar_ne_nil (c := c)))
      = false :=
    h.octet _ (le_of_mem_encodeChar (c := c) (by omega) (List.getLast_mem _))
  rw [hlast]
  simp [hp, hq]

end Utf8
