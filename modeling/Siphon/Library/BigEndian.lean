import Siphon.Library.Text

/-!
# Big-endian numbers

A number in a fixed number of bytes, the most significant one first.
-/

namespace BigEndian

def decode (bytes : Bytes) : ℕ :=
  bytes.foldl (fun n b => 256 * n + b.toNat) 0

/-- The bytes of a number, as many as said; what does not fit is dropped. -/
def encode : ℕ → ℕ → Bytes
  | 0, _ => []
  | width + 1, n => encode width (n / 256) ++ [UInt8.ofNat n]

@[simp] theorem length_encode (width n : ℕ) :
  (encode width n).length = width
  := by
  induction width generalizing n with
  | zero => rfl
  | succ width ih => rw [encode, List.length_append, ih, List.length_singleton]

theorem decode_append_singleton (bytes : Bytes) (b : UInt8) :
  decode (bytes ++ [b]) = 256 * decode bytes + b.toNat
  := by
  rw [decode, List.foldl_append]
  rfl

theorem decode_lt (bytes : Bytes) :
  decode bytes < 256 ^ bytes.length
  := by
  induction bytes using List.reverseRecOn with
  | nil => decide
  | append_singleton bytes b ih =>
  have hb : b.toNat < 256 := b.toNat_lt
  rw [decode_append_singleton, List.length_append, List.length_singleton, Nat.pow_succ]
  omega

theorem decode_encode (width n : ℕ) :
  decode (encode width n) = n % 256 ^ width
  := by
  induction width generalizing n with
  | zero => rw [encode, Nat.pow_zero, Nat.mod_one]; rfl
  | succ width ih =>
  have hpow : 256 ^ (width + 1) = 256 * 256 ^ width := Nat.pow_succ'
  rw [encode, decode_append_singleton, ih, UInt8.toNat_ofNat', hpow, Nat.mod_mul, Nat.add_comm]

theorem decode_encode_of_lt {width n : ℕ} (h : n < 256 ^ width) :
  decode (encode width n) = n
  := by
  rw [decode_encode, Nat.mod_eq_of_lt h]

theorem encode_decode (bytes : Bytes) :
  encode bytes.length (decode bytes) = bytes
  := by
  induction bytes using List.reverseRecOn with
  | nil => rfl
  | append_singleton bytes b ih =>
  have hb : b.toNat < 256 := b.toNat_lt
  have hdiv : (256 * decode bytes + b.toNat) / 256 = decode bytes := by omega
  have hmod : UInt8.ofNat (256 * decode bytes + b.toNat) = b := by
    apply UInt8.toNat_inj.mp
    rw [UInt8.toNat_ofNat']
    omega
  rw [List.length_append, List.length_singleton, encode, decode_append_singleton, hdiv, ih, hmod]

theorem encode_decode_of_length {width : ℕ} {bytes : Bytes} (h : bytes.length = width) :
  encode width (decode bytes) = bytes
  := by
  rw [← h, encode_decode]

end BigEndian
