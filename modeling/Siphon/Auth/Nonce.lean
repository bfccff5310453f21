import Siphon.Library.Decimal
import Siphon.Library.Hex
import Siphon.Library.Lines
import Siphon.Sip.Refer

/-!
# Nonces

The nonce of a digest challenge is the time it was made and a tag: a keyed hash of the time when
there is a secret, a random number otherwise.
-/

namespace Siphon.Auth

inductive DigestAlgorithm where
  | md5
  | md5Sess
  | sha256
  | sha256Sess
  | sha512_256
  | sha512_256Sess
  | akaV1Md5
deriving DecidableEq

/-- The hash functions, whose values are hexadecimal texts. -/
class StdDigest where
  hashHex : DigestAlgorithm → Bytes → Text
  hmacSha256Hex : Bytes → Bytes → Text

structure NonceConfig where
  nonceSecret : Option Bytes
  nonceTtlSecs : ℕ

/-- What a nonce is made from: the seconds since 1970 and a random number. -/
structure NonceSource where
  unixSecs : UInt64
  uuid : BitVec 128

/-- The unsigned integer below `bound` a text denotes in base 16, after an optional `+`. -/
def parseHex (bound : ℕ) (t : Text) : Option ℕ :=
  match Decimal.stripPlus t with
  | [] => none
  | digits =>
    ((digits.mapM hexDigit).map fun values => values.foldl (fun n d => 16 * n + d) 0).filter
      fun n => n < bound

def constantTimeEq (a b : Bytes) : Bool :=
  if a.length ≠ b.length then false
  else (a.zip b).foldl (fun diff pair => diff ||| (pair.1 ^^^ pair.2)) 0 == 0

theorem point_not_mem_pad (width n : ℕ) :
  '.' ∉ Hex.pad width n
  := Hex.not_mem_pad (by decide) width n

section

variable [StdDigest] (auth : NonceConfig)

def generateNonce (source : NonceSource) : Text :=
  let timestampHex := Hex.pad 16 source.unixSecs.toNat
  let tag :=
    match auth.nonceSecret with
    | some secret => StdDigest.hmacSha256Hex secret (Utf8.encode timestampHex)
    | none => Hex.pad 32 source.uuid.toNat
  timestampHex ++ '.' :: tag

def validateNonce (now : ℕ) (nonce : Text) : Bool :=
  match Slice.splitOnce '.' nonce with
  | none => false
  | some (timestampHex, tag) =>
    match parseHex (2 ^ 64) timestampHex with
    | none => false
    | some timestamp =>
      if now - timestamp > auth.nonceTtlSecs ∨ timestamp - now > 60 then false
      else
        match auth.nonceSecret with
        | some secret =>
          let expected := StdDigest.hmacSha256Hex secret (Utf8.encode timestampHex)
          constantTimeEq (Utf8.encode expected) (Utf8.encode tag)
        | none => true

/-- Two sources of nonces that may give the same nonce. -/
def NonceSource.Clashes (a b : NonceSource) : Prop :=
  a.unixSecs = b.unixSecs ∧ (auth.nonceSecret = none → a.uuid = b.uuid)

instance (a b : NonceSource) : Decidable (a.Clashes auth b) :=
  inferInstanceAs (Decidable (_ ∧ _))

theorem generateNonce_eq_iff (a b : NonceSource) :
  generateNonce auth a = generateNonce auth b ↔ a.Clashes auth b
  := by
  constructor
  · intro h
    obtain ⟨htime, htag⟩ :=
      Lines.append_cons_inj (point_not_mem_pad 16 _) (point_not_mem_pad 16 _) h
    constructor
    · exact UInt64.toNat_inj.mp (Hex.pad_injective a.unixSecs.toNat_lt b.unixSecs.toNat_lt htime)
    · intro hsecret
      rw [hsecret] at htag
      exact BitVec.eq_of_toNat_eq (Hex.pad_injective a.uuid.isLt b.uuid.isLt htag)
  · rintro ⟨htime, huuid⟩
    rw [generateNonce, generateNonce, htime]
    cases hsecret : auth.nonceSecret with
    | some secret => rfl
    | none => rw [huuid hsecret]

end

/-! ### Base 64 -/

def base64Chars : Text :=
  "ABCDEFGHIJKLMNOPQRSTUVWXYZabcdefghijklmnopqrstuvwxyz0123456789+/".toList

/-- The digit of the six bits of a number from bit `shift` on. -/
def base64Digit (triple shift : ℕ) : Char :=
  base64Chars.getD (triple >>> shift % 64) '='

def base64Encode : Bytes → Text
  | [] => []
  | [b0] =>
    let triple := b0.toNat <<< 16
    [base64Digit triple 18, base64Digit triple 12, '=', '=']
  | [b0, b1] =>
    let triple := b0.toNat <<< 16 + b1.toNat <<< 8
    [base64Digit triple 18, base64Digit triple 12, base64Digit triple 6, '=']
  | b0 :: b1 :: b2 :: rest =>
    let triple := b0.toNat <<< 16 + b1.toNat <<< 8 + b2.toNat
    base64Digit triple 18 :: base64Digit triple 12 :: base64Digit triple 6
      :: base64Digit triple 0 :: base64Encode rest

end Siphon.Auth
