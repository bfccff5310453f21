import Siphon.Diameter.Codec

/-!
# AVPs on the wire

The bytes of an AVP and of what follows it, read back field by field, and the rule of induction for
the sequences of AVPs that parse.
-/

namespace Siphon.Diameter

open List BigEndian

/-! ### Numbers of four bytes -/

variable (n : UInt32)

@[simp] theorem length_u32ToBeBytes :
  (u32ToBeBytes n).length = 4
  := length_encode 4 n.toNat

@[simp] theorem u32FromBeBytes_toBeBytes :
  u32FromBeBytes (u32ToBeBytes n) = n
  := by
  have hlt : n.toNat < 256 ^ 4 := n.toNat_lt
  rw [u32FromBeBytes, u32ToBeBytes, decode_encode_of_lt hlt, UInt32.ofNat_toNat]

theorem u32ToBeBytes_fromBeBytes {bytes : Bytes} (h : bytes.length = 4) :
  u32ToBeBytes (u32FromBeBytes bytes) = bytes
  := by
  have hlt : decode bytes < 2 ^ 32 := by
    have hdecode := decode_lt bytes
    rw [h] at hdecode
    exact hdecode
  rw [u32ToBeBytes, u32FromBeBytes, UInt32.toNat_ofNat_of_lt' hlt,
    encode_decode_of_length h]

theorem exists_u32ToBeBytes :
  ∃ a b c d, u32ToBeBytes n = [a, b, c, d]
  := ⟨_, _, _, _, rfl⟩

theorem exists_encode_three (n : ℕ) :
  ∃ a b c, encode 3 n = [a, b, c]
  := ⟨_, _, _, rfl⟩

/-! ### The header of an AVP -/

@[simp] theorem length_avpHeader (code vendor : UInt32) (flags : UInt8) (n : ℕ) :
  (avpHeader code vendor flags n).length = headerSize flags
  := by
  rw [avpHeader, headerSize]
  cases hasVendor flags <;> simp

section

variable {code vendor : UInt32} {flags : UInt8} {n : ℕ} (tail : Bytes)

@[simp] theorem codeAt_avpHeader :
  codeAt (avpHeader code vendor flags n ++ tail) = code
  := by
  obtain ⟨a, b, c, d, hcode⟩ := exists_u32ToBeBytes code
  have htake : (avpHeader code vendor flags n ++ tail).take 4 = u32ToBeBytes code := by
    simp [avpHeader, hcode]
  rw [codeAt, htake, u32FromBeBytes_toBeBytes]

@[simp] theorem flagsAt_avpHeader :
  flagsAt (avpHeader code vendor flags n ++ tail) = flags
  := by
  obtain ⟨a, b, c, d, hcode⟩ := exists_u32ToBeBytes code
  simp [flagsAt, avpHeader, hcode]

theorem lengthAt_avpHeader (h : headerSize flags + n < 2 ^ 24) :
  lengthAt (avpHeader code vendor flags n ++ tail) = headerSize flags + n
  := by
  obtain ⟨a, b, c, d, hcode⟩ := exists_u32ToBeBytes code
  obtain ⟨x, y, z, hlength⟩ := exists_encode_three (headerSize flags + n)
  have htake : ((avpHeader code vendor flags n ++ tail).drop 5).take 3
      = encode 3 (headerSize flags + n) := by
    simp [avpHeader, hcode, hlength]
  rw [lengthAt, htake, decode_encode_of_lt h]

theorem vendorAt_avpHeader (h : hasVendor flags = false → vendor = 0) :
  vendorAt (avpHeader code vendor flags n ++ tail) = vendor
  := by
  obtain ⟨a, b, c, d, hcode⟩ := exists_u32ToBeBytes code
  obtain ⟨p, q, r, s, hvendor⟩ := exists_u32ToBeBytes vendor
  obtain ⟨x, y, z, hlength⟩ := exists_encode_three (headerSize flags + n)
  rw [vendorAt, flagsAt_avpHeader]
  cases hflag : hasVendor flags with
  | false => simp [h hflag]
  | true =>
  have htake : ((avpHeader code vendor flags n ++ tail).drop 8).take 4 = u32ToBeBytes vendor := by
    simp [avpHeader, hcode, hlength, hvendor, hflag]
  rw [htake, u32FromBeBytes_toBeBytes]
  rfl

end

variable {code vendor : UInt32} {flags : UInt8} {value pad rest : Bytes}

theorem valueAt_avpHeader (h : headerSize flags + value.length < 2 ^ 24) (tail : Bytes) :
  valueAt (avpHeader code vendor flags value.length ++ (value ++ tail)) = value
  := by
  rw [valueAt, lengthAt_avpHeader _ h, flagsAt_avpHeader, ← append_assoc,
    take_left' (by simp), drop_left' (by simp)]

@[simp] theorem length_padding (length : ℕ) :
  (padding length).length = padded length - length
  := length_replicate

theorem drop_padded_avpHeader (h : headerSize flags + value.length < 2 ^ 24)
    (hpad : pad.length ≤ padded (headerSize flags + value.length)
      - (headerSize flags + value.length))
    (hrest : rest ≠ [] → pad.length = padded (headerSize flags + value.length)
      - (headerSize flags + value.length)) :
  let data := avpHeader code vendor flags value.length ++ (value ++ (pad ++ rest))
  data.drop (padded (lengthAt data)) = rest
  := by
  intro data
  have hle := le_padded (headerSize flags + value.length)
  have hdata : data = (avpHeader code vendor flags value.length ++ value ++ pad) ++ rest := by
    simp [data]
  rw [lengthAt_avpHeader _ h, hdata]
  by_cases hnil : rest = []
  · subst hnil
    rw [append_nil]
    apply drop_eq_nil_of_le
    simp only [length_append, length_avpHeader]
    omega
  · have hlength := hrest hnil
    apply drop_left'
    simp only [length_append, length_avpHeader]
    omega

/-! ### The AVP some bytes start with -/

/-- Bytes that are long enough for the header they start with. -/
structure StartsAvp (data : Bytes) : Prop where
  eight_le : 8 ≤ data.length
  header_le : headerSize (flagsAt data) ≤ lengthAt data
  length_le : lengthAt data ≤ data.length

variable {data : Bytes}

theorem exists_eq_cons_of_eight_le (h : 8 ≤ data.length) :
  ∃ a b c d flags x y z rest, data = a :: b :: c :: d :: flags :: x :: y :: z :: rest
  := by
  match data, h with
  | a :: b :: c :: d :: flags :: x :: y :: z :: rest, _ =>
    exact ⟨a, b, c, d, flags, x, y, z, rest, rfl⟩

theorem exists_eq_cons_of_four_le (h : 4 ≤ data.length) :
  ∃ a b c d rest, data = a :: b :: c :: d :: rest
  := by
  match data, h with
  | a :: b :: c :: d :: rest, _ => exact ⟨a, b, c, d, rest, rfl⟩

namespace StartsAvp

variable {data : Bytes} (h : StartsAvp data)

include h

theorem length_valueAt :
  headerSize (flagsAt data) + (valueAt data).length = lengthAt data
  := by
  have hheader := h.header_le
  have hlength := h.length_le
  rw [valueAt, length_drop, length_take]
  omega

theorem take_headerSize :
  data.take (headerSize (flagsAt data))
    = avpHeader (codeAt data) (vendorAt data) (flagsAt data) (valueAt data).length
  := by
  have hvalue := h.length_valueAt
  rw [avpHeader, hvalue]
  obtain ⟨a, b, c, d, flags, x, y, z, rest, rfl⟩ := exists_eq_cons_of_eight_le h.eight_le
  have hcode : u32ToBeBytes (codeAt (a :: b :: c :: d :: flags :: x :: y :: z :: rest))
      = [a, b, c, d] :=
    u32ToBeBytes_fromBeBytes rfl
  have hlen : encode 3 (lengthAt (a :: b :: c :: d :: flags :: x :: y :: z :: rest))
      = [x, y, z] :=
    encode_decode_of_length rfl
  have hflags : flagsAt (a :: b :: c :: d :: flags :: x :: y :: z :: rest) = flags := rfl
  rw [hcode, hlen, hflags, headerSize, vendorAt, hflags]
  cases hflag : hasVendor flags with
  | false => simp
  | true =>
  have hlong : 4 ≤ rest.length := by
    have hheader := h.header_le.trans h.length_le
    simp only [hflags, headerSize, hflag, if_true, length_cons] at hheader
    omega
  obtain ⟨p, q, r, s, rest, rfl⟩ := exists_eq_cons_of_four_le hlong
  have hvendor : u32ToBeBytes (u32FromBeBytes [p, q, r, s]) = [p, q, r, s] :=
    u32ToBeBytes_fromBeBytes rfl
  simp [hvendor]

theorem eq_append :
  data = avpHeader (codeAt data) (vendorAt data) (flagsAt data) (valueAt data).length
    ++ (valueAt data ++ data.drop (lengthAt data))
  := by
  have htake : data.take (lengthAt data)
      = data.take (headerSize (flagsAt data)) ++ valueAt data := by
    have hcut := take_append_drop (headerSize (flagsAt data)) (data.take (lengthAt data))
    rw [take_take, Nat.min_eq_left h.header_le] at hcut
    exact hcut.symm
  rw [← h.take_headerSize, ← append_assoc, ← htake, take_append_drop]

end StartsAvp

theorem startsAvp_avpHeader (h : headerSize flags + value.length < 2 ^ 24) (tail : Bytes) :
  StartsAvp (avpHeader code vendor flags value.length ++ (value ++ tail))
  := by
  have height := eight_le_headerSize flags
  constructor <;>
    simp only [flagsAt_avpHeader, lengthAt_avpHeader _ h, length_append, length_avpHeader] <;>
    omega

theorem vendorAt_eq_zero (h : hasVendor (flagsAt data) = false) :
  vendorAt data = 0
  := by
  rw [vendorAt, h]
  rfl

theorem encodeAvps_cons (code vendor : UInt32) (flags : UInt8) (value : AvpData) (avps : List Avp) :
  encodeAvps (.mk code vendor flags value :: avps)
    = avpHeader code vendor flags (encodeValue value).length ++ (encodeValue value
      ++ (padding (headerSize flags + (encodeValue value).length) ++ encodeAvps avps))
  := by
  simp [encodeAvps, encodeOneAvp]

theorem drop_lengthAt (data : Bytes) :
  data.drop (lengthAt data)
    = (data.drop (lengthAt data)).take (padded (lengthAt data) - lengthAt data)
      ++ data.drop (padded (lengthAt data))
  := by
  have hcut := take_append_drop (padded (lengthAt data) - lengthAt data)
    (data.drop (lengthAt data))
  rw [drop_drop, Nat.add_sub_cancel' (le_padded _)] at hcut
  exact hcut.symm

theorem length_pad_of_drop_ne_nil (h : data.drop (padded (lengthAt data)) ≠ []) :
  ((data.drop (lengthAt data)).take (padded (lengthAt data) - lengthAt data)).length
    = padded (lengthAt data) - lengthAt data
  := by
  have hlt : padded (lengthAt data) < data.length := by
    by_contra hle
    exact h (drop_eq_nil_of_le (Nat.not_lt.mp hle))
  rw [length_take, length_drop]
  omega

/-! ### Messages -/

def messageOf (msg : Bytes) (avps : List Avp) : DiameterMsg where
  flags := msg.getD 4 0
  commandCode := u32FromBeBytes ((msg.drop 5).take 3)
  applicationId := u32FromBeBytes ((msg.drop 8).take 4)
  hopByHop := u32FromBeBytes ((msg.drop 12).take 4)
  endToEnd := u32FromBeBytes ((msg.drop 16).take 4)
  avps := avps

theorem toWire_messageOf {msg : Bytes} (h : 20 ≤ msg.length) (avps : List Avp) :
  (messageOf msg avps).toWire
    = 1 :: (encode 3 (20 + (encodeAvps avps).length)
      ++ ((msg.take 20).drop 4 ++ encodeAvps avps))
  := by
  obtain ⟨version, x, y, z, flags, p, q, r, rest, rfl⟩ :=
    exists_eq_cons_of_eight_le (Nat.le_trans (by decide) h)
  simp only [length_cons] at h
  have hcode : encode 3 (u32FromBeBytes [p, q, r]).toNat = [p, q, r] := by
    have hlt : decode [p, q, r] < 256 ^ 3 := decode_lt [p, q, r]
    rw [u32FromBeBytes, UInt32.toNat_ofNat_of_lt' (hlt.trans (by decide))]
    exact encode_decode [p, q, r]
  have hword (n : ℕ) (hn : n + 4 ≤ rest.length) :
      u32ToBeBytes (u32FromBeBytes ((rest.drop n).take 4)) = (rest.drop n).take 4 := by
    apply u32ToBeBytes_fromBeBytes
    rw [length_take, length_drop]
    omega
  have hwords : rest.take 12
      = rest.take 4 ++ ((rest.drop 4).take 4 ++ (rest.drop 8).take 4) := by
    rw [take_add (i := 4) (j := 8), take_add (i := 4) (j := 4), drop_drop]
  have hfirst := hword 0 (by omega)
  have hsecond := hword 4 (by omega)
  have hthird := hword 8 (by omega)
  simp only [drop_zero] at hfirst
  simp [DiameterMsg.toWire, messageOf, encodeDiameterMessage, hcode, hfirst, hsecond, hthird,
    hwords]

/-! ### Sequences of AVPs -/

section

variable [Dictionary]

theorem parseAvps_of_length_lt (h : data.length < 8) (offset : ℕ) :
  parseAvps offset data = .ok []
  := by
  rw [parseAvps, if_pos h]

/-- The value of an AVP, which is AVPs again in a group. -/
def parseValue (code vendor : UInt32) (value : Bytes) : Except DecodeError AvpData :=
  if isGrouped code vendor then (parseAvps 0 value).map .grouped else .ok (.raw value)

theorem parseAvps_of_startsAvp (h : StartsAvp data) (offset : ℕ) :
  parseAvps offset data
    = (parseValue (codeAt data) (vendorAt data) (valueAt data)).bind fun value =>
      (parseAvps (offset + padded (lengthAt data)) (data.drop (padded (lengthAt data)))).map
        (.mk (codeAt data) (vendorAt data) (flagsAt data) value :: ·)
  := by
  rw [parseAvps, if_neg (Nat.not_lt.mpr h.eight_le), if_neg (Nat.not_lt.mpr h.header_le),
    if_neg (Nat.not_lt.mpr h.length_le), parseValue]
  generalize parseAvps (offset + padded (lengthAt data)) (data.drop (padded (lengthAt data)))
    = others
  split
  · cases parseAvps 0 (valueAt data) <;> cases others <;> rfl
  · cases others <;> rfl

theorem parseAvps_avpHeader (h : headerSize flags + value.length < 2 ^ 24)
    (hvendor : hasVendor flags = false → vendor = 0)
    (hpad : pad.length = padded (headerSize flags + value.length)
      - (headerSize flags + value.length)) (offset : ℕ) :
  parseAvps offset (avpHeader code vendor flags value.length ++ (value ++ (pad ++ rest)))
    = (parseValue code vendor value).bind fun data =>
      (parseAvps (offset + padded (headerSize flags + value.length)) rest).map
        (.mk code vendor flags data :: ·)
  := by
  have hdrop := @drop_padded_avpHeader code vendor flags value pad rest h (Nat.le_of_eq hpad)
    fun _ => hpad
  rw [parseAvps_of_startsAvp (startsAvp_avpHeader h _), hdrop, codeAt_avpHeader,
    vendorAt_avpHeader _ hvendor, flagsAt_avpHeader, valueAt_avpHeader h, lengthAt_avpHeader _ h]

theorem startsAvp_of_parseAvps {offset : ℕ} {avps : List Avp}
    (h : parseAvps offset data = .ok avps) :
  data.length < 8 ∨ StartsAvp data
  := by
  rw [parseAvps] at h
  split at h
  · exact .inl ‹_›
  split at h
  · cases h
  · split at h
    · cases h
    · exact .inr ⟨Nat.not_lt.mp ‹_›, Nat.not_lt.mp ‹_›, Nat.not_lt.mp ‹_›⟩

/-- What holds of bytes too short for an AVP, and of an AVP and what follows it if it holds of what
follows and, for a group, of the value, holds of every sequence of AVPs that parses. -/
theorem parseAvps_induction {motive : Bytes → List Avp → Prop}
    (short : ∀ data, data.length < 8 → motive data [])
    (raw : ∀ data rest, StartsAvp data → isGrouped (codeAt data) (vendorAt data) = false →
      motive (data.drop (padded (lengthAt data))) rest →
      motive data (.mk (codeAt data) (vendorAt data) (flagsAt data) (.raw (valueAt data)) :: rest))
    (grouped : ∀ data children rest, StartsAvp data →
      isGrouped (codeAt data) (vendorAt data) = true → motive (valueAt data) children →
      motive (data.drop (padded (lengthAt data))) rest →
      motive data (.mk (codeAt data) (vendorAt data) (flagsAt data) (.grouped children) :: rest))
    {offset : ℕ} {avps : List Avp} (h : parseAvps offset data = .ok avps) :
  motive data avps
  := by
  induction hn : data.length using Nat.strong_induction_on generalizing offset data avps with
  | _ n ih =>
    subst hn
    rcases startsAvp_of_parseAvps h with hshort | hstarts
    · rw [parseAvps_of_length_lt hshort, Except.ok.injEq] at h
      exact h ▸ short data hshort
    have hvalue := length_valueAt_lt (Nat.not_lt.mpr hstarts.eight_le)
    have hdrop := length_drop_padded_lt (Nat.not_lt.mpr hstarts.eight_le)
      (Nat.not_lt.mpr hstarts.header_le)
    rw [parseAvps_of_startsAvp hstarts, parseValue] at h
    cases hrest : parseAvps (offset + padded (lengthAt data))
        (data.drop (padded (lengthAt data))) with
    | error error =>
      rw [hrest] at h
      split at h
      · cases hchildren : parseAvps 0 (valueAt data) <;> rw [hchildren] at h <;> cases h
      · cases h
    | ok rest =>
      rw [hrest] at h
      split at h
      · rename_i hgrouped
        cases hchildren : parseAvps 0 (valueAt data) with
        | error error =>
          rw [hchildren] at h
          cases h
        | ok children =>
          rw [hchildren] at h
          cases h
          exact grouped data children rest hstarts hgrouped (ih _ hvalue hchildren rfl)
            (ih _ hdrop hrest rfl)
      · rename_i hraw
        cases h
        exact raw data rest hstarts (Bool.not_eq_true _ ▸ hraw) (ih _ hdrop hrest rfl)

theorem fromWire_eq_ok_iff {msg : Bytes} {m : DiameterMsg} :
  fromWire msg = .ok m
    ↔ 20 ≤ msg.length ∧ msg.getD 0 0 = 1 ∧ 20 ≤ declaredLength msg
      ∧ declaredLength msg ≤ msg.length
      ∧ ∃ avps, parseAvps 0 ((msg.take (declaredLength msg)).drop 20) = .ok avps
        ∧ m = messageOf msg avps
  := by
  rw [fromWire]
  split
  · simp only [reduceCtorEq, false_iff, not_and]
    omega
  split
  · simp_all
  split
  · simp only [reduceCtorEq, false_iff, not_and]
    omega
  cases parseAvps 0 ((msg.take (declaredLength msg)).drop 20) with
  | error error => simp [bind, Except.bind]
  | ok avps =>
  rename_i hlong hversion hdeclared
  rw [not_or, Nat.not_lt, Nat.not_lt] at hdeclared
  rw [not_not] at hversion
  simp only [bind, Except.bind, pure, Except.pure, Except.ok.injEq, Nat.not_lt.mp hlong,
    hversion, hdeclared.1, hdeclared.2, true_and, exists_eq_left', messageOf]
  exact eq_comm

end

def messageWith (avp : Bytes) : Bytes :=
  [1, 0, 0, UInt8.ofNat (20 + avp.length), 0x80, 0, 1, 1] ++ List.replicate 12 0 ++ avp

/-- A group with an AVP whose padding is not zero. -/
def paddedGroup : Bytes :=
  [0, 0, 1, 4, 0x40, 0, 0, 20, 0, 0, 1, 10, 0x40, 0, 0, 9, 5, 7, 7, 7]

theorem exists_ok_of_isOk {α : Type} {result : Except DecodeError α} (h : result.isOk = true) :
  ∃ a, result = .ok a
  := by
  cases result with
  | ok a => exact ⟨a, rfl⟩
  | error error => cases h

end Siphon.Diameter
