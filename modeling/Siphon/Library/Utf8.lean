import Siphon.Library.Text

/-!
# UTF-8

The octets of a text, and the text valid UTF-8 octets stand for.
-/

namespace Utf8

open List

def encode (t : Text) : Bytes :=
  t.flatMap String.utf8EncodeChar

/-- The text some octets stand for, if they are valid UTF-8. -/
def decode (b : Bytes) : Option Text :=
  b.toByteArray.utf8Decode?.map Array.toList

@[simp] theorem encode_nil :
  encode [] = []
  := rfl

@[simp] theorem encode_cons (c : Char) (t : Text) :
  encode (c :: t) = String.utf8EncodeChar c ++ encode t
  := flatMap_cons

@[simp] theorem encode_append (s t : Text) :
  encode (s ++ t) = encode s ++ encode t
  := flatMap_append

theorem encode_flatMap {α : Type} (l : List α) (f : α → Text) :
  encode (l.flatMap f) = l.flatMap fun a => encode (f a)
  := flatMap_assoc

variable {t : Text}

theorem decode_eq_some_iff {b : Bytes} :
  decode b = some t ↔ b = encode t
  := by
  constructor
  · intro h
    rw [decode, Option.map_eq_some_iff] at h
    obtain ⟨a, ha, rfl⟩ := h
    have hsome : b.toByteArray.utf8Decode?.isSome = true := by simp [ha]
    have hget := ByteArray.utf8Encode_get_utf8Decode? (h := hsome)
    simp only [ha, Option.get_some] at hget
    have hdata := congrArg (fun x : ByteArray => x.data.toList) hget
    simpa [List.utf8Encode, encode] using hdata.symm
  · rintro rfl
    have henc : (encode t).toByteArray = t.utf8Encode := rfl
    rw [decode, henc, List.utf8Decode?_utf8Encode]
    simp

theorem encode_injective :
  Function.Injective encode
  := by
  intro s t h
  have hs : decode (encode t) = some s := decode_eq_some_iff.mpr h.symm
  have ht : decode (encode t) = some t := decode_eq_some_iff.mpr rfl
  rw [hs] at ht
  apply Option.some.inj ht

/-! ### ASCII characters -/

variable {c : Char}

theorem encodeChar_of_lt (h : c.toNat < 128) :
  String.utf8EncodeChar c = [UInt8.ofNat c.toNat]
  := by
  have hc : c.val.toNat ≤ 127 := by
    have : c.toNat = c.val.toNat := rfl
    omega
  rw [String.utf8EncodeChar, if_pos hc]
  rfl

theorem le_of_mem_encodeChar (h : 128 ≤ c.toNat) {b : UInt8} (hb : b ∈ String.utf8EncodeChar c) :
  128 ≤ b.toNat
  := by
  have hc : ¬ c.val.toNat ≤ 127 := by
    have : c.toNat = c.val.toNat := rfl
    omega
  simp only [String.utf8EncodeChar, hc, if_false] at hb
  split at hb
  · simp only [mem_cons, not_mem_nil, or_false] at hb
    rcases hb with rfl | rfl <;> simp only [UInt8.toNat_ofNat'] <;> omega
  split at hb
  · simp only [mem_cons, not_mem_nil, or_false] at hb
    rcases hb with rfl | rfl | rfl <;> simp only [UInt8.toNat_ofNat'] <;> omega
  · simp only [mem_cons, not_mem_nil, or_false] at hb
    rcases hb with rfl | rfl | rfl | rfl <;> simp only [UInt8.toNat_ofNat'] <;> omega

theorem encode_eq_append_cons {x y : Bytes} {b : UInt8} (hb : b.toNat < 128)
    (h : encode t = x ++ b :: y) :
  ∃ s c u, t = s ++ c :: u ∧ c.toNat = b.toNat ∧ x = encode s ∧ y = encode u
  := by
  induction t generalizing x with
  | nil => simp at h
  | cons c t ih =>
  rw [encode_cons, append_eq_append_iff] at h
  rcases h with ⟨x', rfl, h⟩ | ⟨z, hz, h⟩
  · obtain ⟨s, d, u, rfl, hd, rfl, rfl⟩ := ih h
    exact ⟨c :: s, d, u, by simp, hd, by simp, rfl⟩
  cases z with
  | nil =>
    obtain ⟨s, d, u, rfl, hd, hs, rfl⟩ := ih (x := []) (by simpa using h.symm)
    cases s with
    | nil => exact ⟨[c], d, u, rfl, hd, by simpa using hz.symm, rfl⟩
    | cons e s => simp at hs
  | cons z zs =>
    rw [cons_append, List.cons.injEq] at h
    obtain ⟨rfl, rfl⟩ := h
    by_cases hc : c.toNat < 128
    · rw [encodeChar_of_lt hc] at hz
      cases x with
      | nil =>
        simp only [nil_append, List.cons.injEq] at hz
        obtain ⟨hz, rfl⟩ := hz
        apply Exists.intro []
        use c, t
        simp only [← hz, UInt8.toNat_ofNat', encode_nil, nil_append, true_and, and_true]
        omega
      | cons e x => simp at hz
    · have hmem : b ∈ String.utf8EncodeChar c := by simp [hz]
      have := le_of_mem_encodeChar (by omega) hmem
      omega

theorem mem_encode_iff (hc : c.toNat < 128) :
  UInt8.ofNat c.toNat ∈ encode t ↔ c ∈ t
  := by
  constructor
  · intro h
    obtain ⟨x, y, hxy⟩ := append_of_mem h
    have hb : (UInt8.ofNat c.toNat).toNat = c.toNat := by
      rw [UInt8.toNat_ofNat']
      omega
    obtain ⟨s, d, u, rfl, hd, -, -⟩ := encode_eq_append_cons (by omega) hxy
    have hcd : d = c := Char.toNat_inj.mp (hd.trans hb)
    simp [hcd]
  · intro h
    obtain ⟨x, y, rfl⟩ := append_of_mem h
    simp [encodeChar_of_lt hc]

theorem count_encode (t : Text) (hc : c.toNat < 128) :
  (encode t).count (UInt8.ofNat c.toNat) = t.count c
  := by
  induction t with
  | nil => rfl
  | cons d t ih =>
  rw [encode_cons, count_append, ih, count_cons]
  by_cases hd : d = c
  · subst hd
    rw [encodeChar_of_lt hc]
    simp [Nat.add_comm]
  have hnot : UInt8.ofNat c.toNat ∉ String.utf8EncodeChar d := by
    intro hmem
    apply hd
    have h : UInt8.ofNat c.toNat ∈ encode [d] := by simpa using hmem
    rw [mem_encode_iff hc, mem_singleton] at h
    apply h.symm
  rw [count_eq_zero_of_not_mem hnot]
  simp [hd]

theorem encode_eq_nil :
  encode t = [] ↔ t = []
  := by
  rw [← encode_nil, encode_injective.eq_iff]

/-! ### Predicates that only see ASCII -/

/-- A predicate on octets and one on characters that agree on ASCII and hold of nothing
else. -/
structure Agree (p : UInt8 → Bool) (q : Char → Bool) : Prop where
  ascii : ∀ c : Char, c.toNat < 128 → p (UInt8.ofNat c.toNat) = q c
  octet : ∀ b : UInt8, 128 ≤ b.toNat → p b = false
  char : ∀ c : Char, 128 ≤ c.toNat → q c = false

variable {p : UInt8 → Bool} {q : Char → Bool}

theorem Agree.of_table (hascii : ∀ n < 128, p (UInt8.ofNat n) = q (Char.ofNat n))
    (hoctet : ∀ n < 256, 128 ≤ n → p (UInt8.ofNat n) = false)
    (hchar : ∀ c : Char, 128 ≤ c.toNat → q c = false) :
  Agree p q
  where
  ascii c hc := by
    have h := hascii c.toNat hc
    rwa [Char.ofNat_toNat] at h
  octet b hb := by
    have h := hoctet b.toNat b.toNat_lt hb
    rwa [UInt8.ofNat_toNat] at h
  char := hchar

section

variable (h : Agree p q) (t : Text)
include h

theorem Agree.of_mem {b : UInt8} (hb : b ∈ String.utf8EncodeChar c) :
  p b = q c
  := by
  by_cases hc : c.toNat < 128
  · rw [encodeChar_of_lt hc, mem_singleton] at hb
    rw [hb, h.ascii c hc]
  · rw [h.octet b (le_of_mem_encodeChar (by omega) hb), h.char c (by omega)]

theorem dropWhile_encode :
  (encode t).dropWhile p = encode (t.dropWhile q)
  := by
  induction t with
  | nil => rfl
  | cons c t ih =>
  cases hq : q c
  · rw [dropWhile_cons_of_neg (by simp [hq]), encode_cons]
    cases hbs : String.utf8EncodeChar c with
    | nil => simp at hbs
    | cons b bs =>
    rw [cons_append, dropWhile_cons_of_neg (by simp [h.of_mem (c := c) (b := b), hbs, hq])]
  · rw [encode_cons, dropWhile_append_of_pos fun b hb => (h.of_mem hb).trans hq, ih,
      dropWhile_cons_of_pos hq]

theorem rdropWhile_encode :
  (encode t).rdropWhile p = encode (t.rdropWhile q)
  := by
  induction t using List.reverseRecOn with
  | nil => rfl
  | append_singleton t c ih =>
  have hall : ∀ b ∈ (String.utf8EncodeChar c).reverse, p b = q c :=
    fun b hb => h.of_mem (mem_reverse.mp hb)
  rw [rdropWhile_concat]
  cases hq : q c
  · rw [if_neg (by simp), encode_append, encode_cons, encode_nil, append_nil,
      rdropWhile_eq_self_iff]
    intro hne
    rw [getLast_append_of_ne_nil _ String.utf8EncodeChar_ne_nil, h.of_mem (getLast_mem _), hq]
    simp
  · rw [if_pos rfl, ← ih, encode_append, encode_cons, encode_nil, append_nil, rdropWhile,
      reverse_append, dropWhile_append_of_pos fun b hb => (hall b hb).trans hq, rdropWhile]

theorem trimMatches_encode :
  Slice.trimMatches p (encode t) = encode (Slice.trimMatches q t)
  := by
  rw [Slice.trimMatches, dropWhile_encode h, rdropWhile_encode h, Slice.trimMatches]

theorem head?_encode_any :
  (encode t).head?.any p = t.head?.any q
  := by
  cases t with
  | nil => rfl
  | cons c t =>
  cases hbs : String.utf8EncodeChar c with
  | nil => simp at hbs
  | cons b bs => simp [hbs, h.of_mem (c := c) (b := b)]

end

theorem map_encode {f : UInt8 → UInt8} {g : Char → Char}
    (hascii : ∀ c : Char, c.toNat < 128 →
      (g c).toNat < 128 ∧ f (UInt8.ofNat c.toNat) = UInt8.ofNat (g c).toNat)
    (hf : ∀ b : UInt8, 128 ≤ b.toNat → f b = b) (hg : ∀ c : Char, 128 ≤ c.toNat → g c = c)
    (t : Text) :
  (encode t).map f = encode (t.map g)
  := by
  induction t with
  | nil => rfl
  | cons c t ih =>
  rw [encode_cons, map_append, ih, map_cons, encode_cons]
  congr 1
  by_cases hc : c.toNat < 128
  · obtain ⟨hlt, he⟩ := hascii c hc
    rw [encodeChar_of_lt hc, encodeChar_of_lt hlt, map_singleton, he]
  rw [hg c (by omega)]
  apply (map_congr_left _).trans (map_id _)
  intro b hb
  apply hf b (le_of_mem_encodeChar (by omega) hb)

end Utf8
