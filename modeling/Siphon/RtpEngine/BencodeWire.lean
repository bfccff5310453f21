import Siphon.RtpEngine.Bencode

/-!
# The wire form of bencode values

What the decoder accepts, as a grammar of its own: a value may be written in several ways, as
numbers are read with leading zeros and signs, and the encoder's way is one of them.
-/

namespace Siphon.RtpEngine

open List Decoded

/-! ### The grammar -/

structure IsLength (t : Bytes) (n : ℕ) : Prop where
  noColon : 58 ∉ t
  reads : (Utf8.decode t).bind (Decimal.parse (2 ^ 64)) = some n

structure IsInteger (t : Bytes) (number : Int64) : Prop where
  noEnd : 101 ∉ t
  reads : (Utf8.decode t).bind (fun s => (Decimal.parseInt (2 ^ 63) s).map Int64.ofInt)
    = some number

def startsWithDigit (b : Bytes) : Bool :=
  b.head?.any fun byte => 48 ≤ byte && byte ≤ 57

/-- Whether there is a first byte and it is not the end of a list or dictionary. -/
def startsItem (b : Bytes) : Bool :=
  b.head?.any fun byte => byte != 101

mutual

inductive Wire : BencodeValue → Bytes → Prop where
  | string {t bytes : Bytes} (hdigit : startsWithDigit t) (ht : IsLength t bytes.length) :
    Wire (.string bytes) (t ++ 58 :: bytes)
  | integer {t : Bytes} {number : Int64} (ht : IsInteger t number) :
    Wire (.integer number) (105 :: t ++ [101])
  | list {items : List BencodeValue} {b : Bytes} (h : WireItems items b) :
    Wire (.list items) (108 :: b ++ [101])
  | dict {pairs : List (Bytes × BencodeValue)} {b : Bytes} (h : WirePairs pairs b) :
    Wire (.dict pairs) (100 :: b ++ [101])

inductive WireItems : List BencodeValue → Bytes → Prop where
  | nil : WireItems [] []
  | cons {item : BencodeValue} {items : List BencodeValue} {a b : Bytes} (h : Wire item a)
    (hs : WireItems items b) : WireItems (item :: items) (a ++ b)

/-- The bytes some keys with their values can be written as, one after the other. -/
inductive WirePairs : List (Bytes × BencodeValue) → Bytes → Prop where
  | nil : WirePairs [] []
  | cons {key t a b : Bytes} {value : BencodeValue} {pairs : List (Bytes × BencodeValue)}
    (ht : IsLength t key.length) (h : Wire value a) (hs : WirePairs pairs b) :
    WirePairs ((key, value) :: pairs) (t ++ 58 :: key ++ a ++ b)

end

/-! ### The decoder, one step -/

section

variable (build : Build)

theorem decode_nil :
  decode build [] = decodeError "empty input".toList
  := by
  rw [decode, decodeValue]
  rfl

variable (tail : Bytes)

theorem decode_integer :
  decode build (105 :: tail) = (decodeInteger (105 :: tail)).map fun r => (.integer r.1, r.2)
  := by
  rw [decode, decodeValue, dif_pos rfl]
  split <;> rename_i h <;> simp only [h] <;> rfl

theorem decode_list :
  decode build (108 :: tail) = (decodeItems build [] tail).map pair
  := by
  rw [decode, decodeValue, dif_neg (by decide), if_pos rfl]
  cases decodeItems build [] tail <;> rfl

theorem decode_dict :
  decode build (100 :: tail) = (decodePairs build [] tail).map pair
  := by
  rw [decode, decodeValue, dif_neg (by decide), if_neg (by decide), if_pos rfl]
  cases decodePairs build [] tail <;> rfl

variable {input : Bytes}

theorem decode_string (h : startsWithDigit input) :
  decode build input = (decodeString build input).map fun r => (.string r.1, r.2)
  := by
  cases input with
  | nil => cases h
  | cons byte tail =>
  have hbyte : 48 ≤ byte ∧ byte ≤ 57 := by simpa [startsWithDigit] using h
  have hne (b : UInt8) (hb : 57 < b) : byte ≠ b := by
    rintro rfl
    exact absurd hbyte.2 (UInt8.not_le.mpr hb)
  rw [decode, decodeValue, dif_neg (hne 105 (by decide)), if_neg (hne 108 (by decide)),
    if_neg (hne 100 (by decide)), if_pos hbyte]
  split <;> rename_i h <;> simp only [h] <;> rfl

variable (items : List BencodeValue)

theorem decodeItems_end (tail : Bytes) :
  (decodeItems build items (101 :: tail)).map pair = .ok (.list items, tail)
  := by
  rw [decodeItems, if_pos rfl]
  rfl

theorem decodeItems_step (h : startsItem input) :
  (decodeItems build items input).map pair =
    (decode build input).bind fun r =>
      (decodeItems build (items ++ [r.1]) r.2).map pair
  := by
  cases input with
  | nil => cases h
  | cons byte tail =>
  have hbyte : byte ≠ 101 := by simpa [startsItem] using h
  rw [decodeItems, if_neg hbyte, decode]
  cases decodeValue build (byte :: tail) with
  | error failure => rfl
  | ok d =>
  change Except.map pair ((decodeItems build (items ++ [d.value]) d.rest).map _)
    = (decodeItems build (items ++ [d.value]) d.rest).map pair
  cases decodeItems build (items ++ [d.value]) d.rest <;> rfl

variable (pairs : List (Bytes × BencodeValue))

theorem decodePairs_end (tail : Bytes) :
  (decodePairs build pairs (101 :: tail)).map pair = .ok (.dict pairs, tail)
  := by
  rw [decodePairs, if_pos rfl]
  rfl

theorem decodePairs_step (h : startsItem input) :
  (decodePairs build pairs input).map pair =
    (decodeString build input).bind fun k =>
      (decode build k.2).bind fun r =>
        (decodePairs build (pairs ++ [(k.1, r.1)]) r.2).map pair
  := by
  cases input with
  | nil => cases h
  | cons byte tail =>
  have hbyte : byte ≠ 101 := by simpa [startsItem] using h
  rw [decodePairs, if_neg hbyte]
  split
  · rename_i failure h
    rw [h]
    rfl
  rename_i key rest h
  simp only [h, Except.bind, decode]
  cases decodeValue build rest with
  | error failure => rfl
  | ok d =>
  change Except.map pair
      ((decodePairs build (pairs ++ [(key, d.value)]) d.rest).map _)
    = (decodePairs build (pairs ++ [(key, d.value)]) d.rest).map pair
  cases decodePairs build (pairs ++ [(key, d.value)]) d.rest <;> rfl

end

/-! ### What is written is decoded -/

theorem IsLength.exists_text {t : Bytes} {n : ℕ} (h : IsLength t n) :
  ∃ s, Utf8.decode t = some s ∧ Decimal.parse (2 ^ 64) s = some n
  := Option.bind_eq_some_iff.mp h.reads

theorem IsLength.startsItem {t : Bytes} {n : ℕ} (h : IsLength t n) :
  startsItem t
  := by
  obtain ⟨s, ht, hs⟩ := h.exists_text
  rw [Utf8.decode_eq_some_iff] at ht
  obtain ⟨hne, hchars, -⟩ := Decimal.parse_eq_some hs
  have hend : UInt8.ofNat 'e'.toNat ∉ t := by
    rw [ht, Utf8.mem_encode_iff (by decide)]
    intro hmem
    rcases hchars _ hmem with h | h <;> revert h <;> decide
  cases t with
  | nil => exact absurd (Utf8.encode_eq_nil.mp ht.symm) hne
  | cons byte t =>
  rw [mem_cons, not_or] at hend
  simpa [RtpEngine.startsItem] using Ne.symm hend.1

theorem startsItem_append {a : Bytes} (h : startsItem a) (b : Bytes) :
  startsItem (a ++ b)
  := by
  cases a with
  | nil => cases h
  | cons byte a => exact h

theorem startsWithDigit_append {a : Bytes} (h : startsWithDigit a) (b : Bytes) :
  startsWithDigit (a ++ b)
  := by
  cases a with
  | nil => cases h
  | cons byte a => exact h

theorem Wire.startsItem {value : BencodeValue} {b : Bytes} (h : Wire value b) :
  startsItem b
  := by
  cases h with
  | string _ ht => exact startsItem_append ht.startsItem _
  | integer | list | dict => rfl

theorem decodeString_of_isLength (build : Build) {t bytes rest : Bytes}
    (h : IsLength t bytes.length) (hlen : (t ++ 58 :: (bytes ++ rest)).length < 2 ^ 64) :
  decodeString build (t ++ 58 :: (bytes ++ rest)) = .ok (bytes, rest)
  := by
  obtain ⟨s, ht, hs⟩ := h.exists_text
  simp only [length_append, length_cons] at hlen
  rw [decodeString_append build h.noColon, ht]
  dsimp only
  rw [hs]
  dsimp only
  rw [decodeData, if_pos (by omega), if_neg (by simp), take_left, drop_left]

theorem decodeInteger_of_isInteger {t : Bytes} {number : Int64} (h : IsInteger t number)
    (rest : Bytes) :
  decodeInteger (105 :: (t ++ 101 :: rest)) = .ok (number, rest)
  := by
  obtain ⟨s, ht, hs⟩ := Option.bind_eq_some_iff.mp h.reads
  obtain ⟨i, hi, rfl⟩ := Option.map_eq_some_iff.mp hs
  rw [decodeInteger_append h.noEnd, ht]
  dsimp only
  rw [hi]

mutual

theorem decode_of_wire (build : Build) {value : BencodeValue} {b : Bytes} (rest : Bytes)
    (hlen : (b ++ rest).length < 2 ^ 64) :
  Wire value b → decode build (b ++ rest) = .ok (value, rest)
  | .string hdigit ht => by
    rw [append_assoc, cons_append] at hlen ⊢
    rw [decode_string build (startsWithDigit_append hdigit _),
      decodeString_of_isLength build ht hlen]
    rfl
  | .integer ht => by
    rw [cons_append, cons_append, append_assoc, singleton_append,
      decode_integer, decodeInteger_of_isInteger ht]
    rfl
  | .list h => by
    rw [cons_append, cons_append, append_assoc, singleton_append] at hlen ⊢
    rw [decode_list, decodeItems_append build [] _ (by simp at hlen ⊢; omega) h, decodeItems_end]
    rfl
  | .dict h => by
    rw [cons_append, cons_append, append_assoc, singleton_append] at hlen ⊢
    rw [decode_dict, decodePairs_append build [] _ (by simp at hlen ⊢; omega) h, decodePairs_end]
    rfl

theorem decodeItems_append (build : Build) {items : List BencodeValue} {b : Bytes}
    (before : List BencodeValue) (tail : Bytes) (hlen : (b ++ tail).length < 2 ^ 64) :
  WireItems items b →
    (decodeItems build before (b ++ tail)).map pair
      = (decodeItems build (before ++ items) tail).map pair
  | .nil => by simp
  | .cons h hs => by
    rw [append_assoc] at hlen ⊢
    rw [decodeItems_step build before (startsItem_append h.startsItem _),
      decode_of_wire build _ hlen h]
    change (decodeItems build _ _).map pair = _
    rw [decodeItems_append build _ tail (by simp at hlen ⊢; omega) hs, append_assoc]
    rfl

theorem decodePairs_append (build : Build) {pairs : List (Bytes × BencodeValue)} {b : Bytes}
    (before : List (Bytes × BencodeValue)) (tail : Bytes) (hlen : (b ++ tail).length < 2 ^ 64) :
  WirePairs pairs b →
    (decodePairs build before (b ++ tail)).map pair
      = (decodePairs build (before ++ pairs) tail).map pair
  | .nil => by simp
  | @WirePairs.cons key t a b _ _ ht h hs => by
    have hassoc : t ++ 58 :: key ++ a ++ b ++ tail = t ++ 58 :: (key ++ (a ++ (b ++ tail))) := by
      simp
    rw [hassoc] at hlen ⊢
    rw [decodePairs_step build before (startsItem_append ht.startsItem _),
      decodeString_of_isLength build ht hlen]
    change (decode build _).bind _ = _
    rw [decode_of_wire build _ (by simp at hlen ⊢; omega) h]
    change (decodePairs build _ _).map pair = _
    rw [decodePairs_append build _ tail (by simp at hlen ⊢; omega) hs, append_assoc]
    rfl

end

/-! ### What is encoded is written -/

theorem not_mem_encode_of_digits {t : Text} {c : Char} (hc : c.toNat < 128)
    (ht : ∀ d ∈ t, d = '-' ∨ d.isDigit = true) (hne : c ≠ '-') (hdigit : c.isDigit = false) :
  UInt8.ofNat c.toNat ∉ Utf8.encode t
  := by
  rw [Utf8.mem_encode_iff hc]
  intro hmem
  rcases ht c hmem with h | h
  · exact hne h
  · rw [hdigit] at h
    cases h

theorem isLength_display {n : ℕ} (h : n < 2 ^ 64) :
  IsLength (Utf8.encode (Decimal.display n)) n
  := by
  constructor
  · exact not_mem_encode_of_digits (c := ':') (by decide)
      (fun d hd => .inr (Decimal.isDigit_of_mem_display hd)) (by decide) (by decide)
  · rw [Utf8.decode_eq_some_iff.mpr rfl, Option.bind_some, Decimal.parse_display h]

theorem startsWithDigit_display (n : ℕ) :
  startsWithDigit (Utf8.encode (Decimal.display n))
  := by
  obtain ⟨c, t, ht⟩ := exists_cons_of_ne_nil (Decimal.display_ne_nil n)
  have hdigit : c.isDigit = true := Decimal.isDigit_of_mem_display (n := n) (by simp [ht])
  obtain ⟨hlow, hhigh⟩ : 48 ≤ c.toNat ∧ c.toNat ≤ 57 := by
    simpa [Char.isDigit, UInt32.le_iff_toNat_le] using hdigit
  rw [ht, Utf8.encode_cons, Utf8.encodeChar_of_lt (by omega)]
  simp [startsWithDigit, UInt8.le_iff_toNat_le]
  omega

theorem isInteger_displayInt (number : Int64) :
  IsInteger (Utf8.encode (Decimal.displayInt number.toInt)) number
  := by
  constructor
  · exact not_mem_encode_of_digits (c := 'e') (by decide) (fun d => Decimal.mem_displayInt)
      (by decide) (by decide)
  · rw [Utf8.decode_eq_some_iff.mpr rfl, Option.bind_some,
      Decimal.parseInt_displayInt number.le_toInt number.toInt_lt, Option.map_some,
      Int64.ofInt_toInt]

mutual

theorem wire_encode :
  (value : BencodeValue) → (encode value).length < 2 ^ 64 → Wire value (encode value)
  | .string bytes, h => by
    rw [encode, encodeString] at h ⊢
    exact .string (startsWithDigit_display _) (isLength_display (by simp at h; omega))
  | .integer number, _ => by
    rw [encode]
    exact .integer (isInteger_displayInt number)
  | .list items, h => by
    rw [encode] at h ⊢
    exact .list (wireItems_encode items (by simp at h; omega))
  | .dict pairs, h => by
    rw [encode] at h ⊢
    exact .dict (wirePairs_encode pairs (by simp at h; omega))

theorem wireItems_encode :
  (items : List BencodeValue) → (encodeItems items).length < 2 ^ 64 →
    WireItems items (encodeItems items)
  | [], _ => by
    rw [encodeItems]
    exact .nil
  | item :: items, h => by
    rw [encodeItems] at h ⊢
    rw [length_append] at h
    exact .cons (wire_encode item (by omega)) (wireItems_encode items (by omega))

theorem wirePairs_encode :
  (pairs : List (Bytes × BencodeValue)) → (encodePairs pairs).length < 2 ^ 64 →
    WirePairs pairs (encodePairs pairs)
  | [], _ => by
    rw [encodePairs]
    exact .nil
  | (key, value) :: pairs, h => by
    rw [encodePairs, encodeString] at h ⊢
    simp only [length_append, length_cons] at h
    exact .cons (isLength_display (by omega)) (wire_encode value (by omega))
      (wirePairs_encode pairs (by omega))

end

/-- Decoding inverts encoding, with any tail. -/
theorem decode_encode_append (build : Build) (value : BencodeValue) (rest : Bytes)
    (hlen : (encode value ++ rest).length < 2 ^ 64) :
  decode build (encode value ++ rest) = .ok (value, rest)
  := by
  have hvalue : (encode value).length < 2 ^ 64 := by
    rw [length_append] at hlen
    omega
  exact decode_of_wire build rest hlen (wire_encode value hvalue)

/-- A value with a list in a dictionary, and a tail that starts as a value. -/
def nestedValue : BencodeValue :=
  .dict [([97, 58], .list [.integer (-5), .string [101, 58], .list []]), ([], .dict [])]

theorem decode_encode_append_nested :
  (encode nestedValue ++ [105, 49]).length < 2 ^ 64
    ∧ decode .release (encode nestedValue ++ [105, 49]) = .ok (nestedValue, [105, 49])
  := by
  have hlen : (encode nestedValue ++ [105, 49]).length < 2 ^ 64 := by decide +kernel
  exact ⟨hlen, decode_encode_append .release nestedValue [105, 49] hlen⟩

end Siphon.RtpEngine
