import Siphon.Diameter.AvpWire

/-!
# Relaying a Diameter message

A message is relayed by decoding it into the AVP tree and encoding the tree.
-/

namespace Siphon.Diameter

open List

section

variable [Dictionary]

/-! ### What is kept -/

/-- Two sequences of AVPs with the same codes, flags, vendor ids and values, in the same order, at
every depth: in the first the padding is any bytes, and that of the last AVP may be missing in part,
and in the second it is there and zero. -/
inductive Repadded : Bytes → Bytes → Prop where
  | nil : Repadded [] []
  | raw {code vendor : UInt32} {flags : UInt8} {value pad rest rest' : Bytes}
      (vendor_eq : hasVendor flags = false → vendor = 0)
      (not_grouped : isGrouped code vendor = false)
      (pad_le : pad.length ≤ padded (headerSize flags + value.length)
        - (headerSize flags + value.length))
      (pad_eq : rest ≠ [] → pad.length = padded (headerSize flags + value.length)
        - (headerSize flags + value.length))
      (others : Repadded rest rest') :
    Repadded (avpHeader code vendor flags value.length ++ (value ++ (pad ++ rest)))
      (avpHeader code vendor flags value.length
        ++ (value ++ (padding (headerSize flags + value.length) ++ rest')))
  | grouped {code vendor : UInt32} {flags : UInt8} {value value' pad rest rest' : Bytes}
      (vendor_eq : hasVendor flags = false → vendor = 0)
      (is_grouped : isGrouped code vendor = true)
      (children : Repadded value value')
      (pad_le : pad.length ≤ padded (headerSize flags + value.length)
        - (headerSize flags + value.length))
      (pad_eq : rest ≠ [] → pad.length = padded (headerSize flags + value.length)
        - (headerSize flags + value.length))
      (others : Repadded rest rest') :
    Repadded (avpHeader code vendor flags value.length ++ (value ++ (pad ++ rest)))
      (avpHeader code vendor flags value'.length
        ++ (value' ++ (padding (headerSize flags + value'.length) ++ rest')))

/-- Whether the AVPs fill the bytes, at every depth: none are left after the last AVP and its
padding. -/
def filled (data : Bytes) : Bool :=
  if data.length < 8 then data.isEmpty
  else if lengthAt data < headerSize (flagsAt data) then false
  else (!isGrouped (codeAt data) (vendorAt data) || filled (valueAt data))
    && filled (data.drop (padded (lengthAt data)))
termination_by data.length
decreasing_by
  · exact length_valueAt_lt ‹_›
  · exact length_drop_padded_lt ‹_› ‹_›

variable {data : Bytes}

theorem filled_of_length_lt (h : data.length < 8) :
  filled data = data.isEmpty
  := by
  rw [filled, if_pos h]

theorem filled_of_startsAvp (h : StartsAvp data) :
  filled data = ((!isGrouped (codeAt data) (vendorAt data) || filled (valueAt data))
    && filled (data.drop (padded (lengthAt data))))
  := by
  rw [filled, if_neg (Nat.not_lt.mpr h.eight_le), if_neg (Nat.not_lt.mpr h.header_le)]

theorem filled_of_repadded {data' : Bytes} (h : Repadded data data')
    (hlength : data.length < 2 ^ 24) :
  filled data = true
  := by
  induction h with
  | nil => rw [filled_of_length_lt (by decide)]; rfl
  | raw hvendor hraw hle heq hothers ih =>
    simp only [length_append, length_avpHeader] at hlength
    rw [filled_of_startsAvp (startsAvp_avpHeader (by omega) _), codeAt_avpHeader,
      vendorAt_avpHeader _ hvendor, hraw, drop_padded_avpHeader (by omega) hle heq, ih (by omega)]
    rfl
  | grouped hvendor hgrouped hchildren hle heq hothers ihchildren ih =>
    simp only [length_append, length_avpHeader] at hlength
    rw [filled_of_startsAvp (startsAvp_avpHeader (by omega) _), valueAt_avpHeader (by omega),
      drop_padded_avpHeader (by omega) hle heq, ih (by omega), ihchildren (by omega)]
    simp

/-! ### What the tree gives back -/

theorem StartsAvp.repadded {value' rest' : Bytes} (h : StartsAvp data)
    (hvalue : isGrouped (codeAt data) (vendorAt data) = false ∧ value' = valueAt data
      ∨ isGrouped (codeAt data) (vendorAt data) = true ∧ Repadded (valueAt data) value')
    (hothers : Repadded (data.drop (padded (lengthAt data))) rest') :
  Repadded data (avpHeader (codeAt data) (vendorAt data) (flagsAt data) value'.length
    ++ (value' ++ (padding (headerSize (flagsAt data) + value'.length) ++ rest')))
  := by
  have hlength := h.length_valueAt
  suffices hparts : Repadded (avpHeader (codeAt data) (vendorAt data) (flagsAt data)
      (valueAt data).length ++ (valueAt data ++ ((data.drop (lengthAt data)).take
        (padded (lengthAt data) - lengthAt data) ++ data.drop (padded (lengthAt data))))) _ by
    rwa [← drop_lengthAt, ← h.eq_append] at hparts
  rcases hvalue with ⟨hraw, rfl⟩ | ⟨hgrouped, hchildren⟩
  · exact .raw vendorAt_eq_zero hraw (by rw [hlength]; exact length_take_le _ _)
      (by rw [hlength]; exact length_pad_of_drop_ne_nil) hothers
  · exact .grouped vendorAt_eq_zero hgrouped hchildren (by rw [hlength]; exact length_take_le _ _)
      (by rw [hlength]; exact length_pad_of_drop_ne_nil) hothers

theorem repadded_encodeAvps {offset : ℕ} {avps : List Avp} (h : parseAvps offset data = .ok avps)
    (hfilled : filled data = true) :
  Repadded data (encodeAvps avps)
  := by
  revert hfilled
  refine parseAvps_induction (motive := fun data avps => filled data = true →
    Repadded data (encodeAvps avps)) ?_ ?_ ?_ h
  · intro data hshort hfilled
    rw [filled_of_length_lt hshort, List.isEmpty_iff] at hfilled
    subst hfilled
    exact .nil
  · intro data rest hstarts hraw ih hfilled
    rw [filled_of_startsAvp hstarts, Bool.and_eq_true] at hfilled
    rw [encodeAvps_cons]
    exact hstarts.repadded (.inl ⟨hraw, rfl⟩) (ih hfilled.2)
  · intro data children rest hstarts hgrouped ihchildren ih hfilled
    rw [filled_of_startsAvp hstarts, Bool.and_eq_true, hgrouped] at hfilled
    rw [encodeAvps_cons]
    exact hstarts.repadded (.inr ⟨hgrouped, ihchildren hfilled.1⟩) (ih hfilled.2)

theorem length_encodeAvps_le {offset : ℕ} {avps : List Avp} (h : parseAvps offset data = .ok avps) :
  (encodeAvps avps).length ≤ padded data.length
  := by
  refine parseAvps_induction (motive := fun data avps =>
    (encodeAvps avps).length ≤ padded data.length) ?_ ?_ ?_ h
  · intro data _
    exact Nat.zero_le _
  · intro data rest hstarts _ ih
    have hlength := hstarts.length_valueAt
    have hle := hstarts.length_le
    rw [length_drop] at ih
    simp only [encodeAvps_cons, encodeValue, length_append, length_avpHeader, length_padding,
      hlength]
    simp only [padded] at ih ⊢
    omega
  · intro data children rest hstarts _ ihchildren ih
    have hlength := hstarts.length_valueAt
    have hle := hstarts.length_le
    have hheader : headerSize (flagsAt data) % 4 = 0 := by
      rw [headerSize]
      split <;> rfl
    rw [length_drop] at ih
    simp only [encodeAvps_cons, encodeValue, length_append, length_avpHeader, length_padding]
    simp only [padded] at ih ihchildren ⊢
    omega

/-! ### Messages -/

/-- The output is the input but for the padding of AVPs, and for the lengths that depend on it. -/
structure Faithful (input output : Bytes) : Prop where
  version : output.take 1 = input.take 1
  length : declaredLength output = output.length
  header : (output.take 20).drop 4 = (input.take 20).drop 4
  avps : Repadded (input.drop 20) (output.drop 20)

/-- A message of at most 1 MiB is relayed faithfully if and only if its AVPs fill it, at every
depth. -/
theorem faithful_toWire_iff {msg : Bytes} {m : DiameterMsg} (h : fromWire msg = .ok m)
    (hlimit : declaredLength msg ≤ 2 ^ 20) :
  Faithful (msg.take (declaredLength msg)) m.toWire
    ↔ filled ((msg.take (declaredLength msg)).drop 20) = true
  := by
  obtain ⟨hlong, hversion, hdeclared, hfits, avps, hparse, rfl⟩ := fromWire_eq_ok_iff.mp h
  have hregion : ((msg.take (declaredLength msg)).drop 20).length = declaredLength msg - 20 := by
    rw [length_drop, length_take, Nat.min_eq_left hfits]
  have hsize := length_encodeAvps_le hparse
  have hbound : 20 + (encodeAvps avps).length < 256 ^ 3 := by
    rw [padded] at hsize
    omega
  have htake : (msg.take (declaredLength msg)).take 20 = msg.take 20 := by
    rw [take_take, Nat.min_eq_left hdeclared]
  have hmiddle : ((msg.take 20).drop 4).length = 16 := by
    rw [length_drop, length_take]
    omega
  obtain ⟨x, y, z, hencode⟩ := exists_encode_three (20 + (encodeAvps avps).length)
  have houtput : (messageOf msg avps).toWire
      = 1 :: x :: y :: z :: ((msg.take 20).drop 4 ++ encodeAvps avps) := by
    rw [toWire_messageOf hlong, hencode]
    rfl
  constructor
  · intro hfaithful
    refine filled_of_repadded hfaithful.avps ?_
    omega
  intro hfilled
  constructor
  · rw [houtput, take_take, Nat.min_eq_left (by omega)]
    cases msg with
    | nil => cases hlong
    | cons version rest =>
    obtain rfl : version = 1 := hversion
    rfl
  · have hlength : (messageOf msg avps).toWire.length = 20 + (encodeAvps avps).length := by
      rw [houtput]
      simp only [length_cons, length_append, hmiddle]
      omega
    rw [hlength, houtput, declaredLength]
    have hdecode := BigEndian.decode_encode_of_lt hbound
    rw [hencode] at hdecode
    exact hdecode
  · rw [htake, houtput]
    exact take_left' hmiddle
  · exact repadded_encodeAvps hparse hfilled

end

/-- A group whose value is too short for an AVP. -/
def shortGroup : Bytes :=
  [0, 0, 1, 4, 0x40, 0, 0, 12, 1, 2, 3, 4]

/-- A message with a group is relayed faithfully. -/
theorem faithful_of_padded_group :
  ∃ m, @fromWire oneGroup (messageWith paddedGroup) = .ok m
    ∧ @Faithful oneGroup (messageWith paddedGroup) m.toWire
  := by
  obtain ⟨m, hm⟩ := exists_ok_of_isOk
    (show (@fromWire oneGroup (messageWith paddedGroup)).isOk = true by decide +kernel)
  have hfaithful := (@faithful_toWire_iff oneGroup _ _ hm (by decide)).mpr (by decide +kernel)
  exact ⟨m, hm, hfaithful⟩

/-- The value of a group that is too short for an AVP is dropped. -/
theorem value_dropped_of_short_group :
  (@fromWire oneGroup (messageWith shortGroup)).map DiameterMsg.toWire
      = .ok (messageWith [0, 0, 1, 4, 0x40, 0, 0, 8])
    ∧ @filled oneGroup shortGroup = false
  := by
  decide +kernel

end Siphon.Diameter
