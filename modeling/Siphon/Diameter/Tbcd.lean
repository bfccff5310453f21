import Siphon.Diameter.Json
import Siphon.Library.Utf8

/-!
# TBCD strings

An octet of a TBCD string holds two digits, the low half first.  An odd number of digits leaves the
filler in the last high half.  The decoder skips whatever is no digit, so it also reads the digits
that come after a filler.
-/

namespace Siphon.Diameter

open List

/-- The values of the ASCII digits among some bytes. -/
def digitValues (bytes : Bytes) : Bytes :=
  bytes.filterMap fun b => if 48 ≤ b ∧ b ≤ 57 then some (b - 48) else none

def packDigits : Bytes → Bytes
  | [] => []
  | [lo] => [(0x0f : UInt8) <<< 4 ||| lo]
  | lo :: hi :: rest => (hi <<< 4 ||| lo) :: packDigits rest

def encodeTbcdDigits (digits : Text) : Bytes :=
  packDigits (digitValues (Utf8.encode digits))

/-- The halves of the octets, in the order of their digits. -/
def nibbles (data : Bytes) : List ℕ :=
  data.flatMap fun b => [b.toNat % 16, b.toNat / 16]

/-- What the decoder is documented to return. -/
def digitsBeforeFiller (data : Bytes) : Text :=
  (((nibbles data).takeWhile (· ≠ 0xf)).filter (· ≤ 9)).map hexDigit

theorem decodeTbcdDigits_eq (data : Bytes) :
  decodeTbcdDigits data = ((nibbles data).filter (· ≤ 9)).map hexDigit
  := by
  induction data with
  | nil => rfl
  | cons b data ih =>
  rw [decodeTbcdDigits, nibbles, flatMap_cons, flatMap_cons, filter_append, map_append]
  refine congrArg₂ _ ?_ ih
  by_cases hlo : b.toNat % 16 ≤ 9 <;> by_cases hhi : b.toNat / 16 ≤ 9 <;> simp [hlo, hhi]

theorem nibbles_cons {lo hi : UInt8} (hlo : lo.toNat < 16) (hhi : hi.toNat < 16) (data : Bytes) :
  nibbles ((hi <<< 4 ||| lo) :: data) = lo.toNat :: hi.toNat :: nibbles data
  := by
  have htable : ∀ lo < 16, ∀ hi < 16,
      (UInt8.ofNat hi <<< 4 ||| UInt8.ofNat lo).toNat = 16 * hi + lo := by
    decide
  have hoctet := htable _ hlo _ hhi
  rw [UInt8.ofNat_toNat, UInt8.ofNat_toNat] at hoctet
  simp only [nibbles, flatMap_cons, hoctet, cons_append, nil_append, cons.injEq, and_true]
  omega

theorem decodeTbcdDigits_packDigits {values : Bytes} (h : ∀ v ∈ values, v.toNat ≤ 9) :
  decodeTbcdDigits (packDigits values) = values.map fun v => hexDigit v.toNat
  := by
  rw [decodeTbcdDigits_eq]
  induction values using packDigits.induct with
  | case1 => rfl
  | case2 lo =>
    have hlo := h lo mem_cons_self
    rw [packDigits, nibbles_cons (by omega) (by decide)]
    simp [hlo, nibbles]
  | case3 lo hi rest ih =>
    simp only [mem_cons, forall_eq_or_imp] at h
    rw [packDigits, nibbles_cons (by omega) (by omega)]
    simp [h.1, h.2.1, ih h.2.2]

theorem digitValues_encodeChar (c : Char) :
  let values := digitValues (String.utf8EncodeChar c)
  (∀ v ∈ values, v.toNat ≤ 9) ∧ values.map (fun v => hexDigit v.toNat) = [c].filter Char.isDigit
  := by
  by_cases hc : c.toNat < 128
  · have htable : ∀ n < 128, (∀ v ∈ digitValues [UInt8.ofNat n], v.toNat ≤ 9)
        ∧ (digitValues [UInt8.ofNat n]).map (fun v => hexDigit v.toNat)
          = [Char.ofNat n].filter Char.isDigit := by
      decide +kernel
    have hchar := htable c.toNat hc
    rwa [Char.ofNat_toNat, ← Utf8.encodeChar_of_lt hc] at hchar
  -- no byte of another character is an ASCII one
  · have hdigit : c.isDigit = false := by
      simp only [Char.isDigit, Bool.and_eq_false_iff, decide_eq_false_iff_not]
      exact .inr fun hle => hc (Nat.lt_of_le_of_lt hle (by decide))
    have hvalues : digitValues (String.utf8EncodeChar c) = [] := by
      rw [digitValues, filterMap_eq_nil_iff]
      intro b hb
      have hle := Utf8.le_of_mem_encodeChar (not_lt.mp hc) hb
      apply if_neg
      rintro ⟨-, hb⟩
      exact absurd (UInt8.le_iff_toNat_le.mp hb) (by simp; omega)
    simp [hvalues, hdigit]

theorem digitValues_encode (digits : Text) :
  let values := digitValues (Utf8.encode digits)
  (∀ v ∈ values, v.toNat ≤ 9) ∧ values.map (fun v => hexDigit v.toNat) = digits.filter Char.isDigit
  := by
  induction digits with
  | nil => exact ⟨by simp [digitValues], rfl⟩
  | cons c digits ih =>
  obtain ⟨hchar, hmap⟩ := digitValues_encodeChar c
  rw [Utf8.encode_cons, digitValues, filterMap_append]
  refine ⟨forall_mem_append.mpr ⟨hchar, ih.1⟩, ?_⟩
  rw [map_append]
  exact (congrArg₂ _ hmap ih.2).trans (filter_append [c] digits).symm

/-- What the encoder packs, the decoder returns; it returns the digits before the first filler of
what it is given exactly when no digit comes after that filler. -/
theorem tbcd_digits (digits : Text) (data : Bytes) :
  decodeTbcdDigits (encodeTbcdDigits digits) = digits.filter Char.isDigit
    ∧ (decodeTbcdDigits data = digitsBeforeFiller data
      ↔ ∀ nibble ∈ (nibbles data).dropWhile (· ≠ 0xf), 9 < nibble)
  := by
  obtain ⟨hvalues, hdigits⟩ := digitValues_encode digits
  constructor
  · rw [encodeTbcdDigits, decodeTbcdDigits_packDigits hvalues, hdigits]
  · rw [decodeTbcdDigits_eq, digitsBeforeFiller]
    nth_rewrite 1 [← takeWhile_append_dropWhile (p := (· ≠ 0xf)) (l := nibbles data)]
    rw [filter_append, map_append, append_right_eq_self, map_eq_nil_iff, filter_eq_nil_iff]
    simp

theorem digits_after_filler :
  decodeTbcdDigits [0xf1, 0x32] = "123".toList ∧ digitsBeforeFiller [0xf1, 0x32] = "1".toList
  := by
  decide

end Siphon.Diameter
