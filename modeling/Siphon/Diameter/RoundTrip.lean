import Siphon.Diameter.AvpWire

/-!
# Decoding an encoded Diameter message

A message tree that fits the format is decoded as itself from its encoding.
-/

namespace Siphon.Diameter

section

variable [Dictionary]

/-! ### Trees that fit the format -/

mutual

/-- An AVP whose V flag says that it has a vendor id, and whose value is a group exactly if the
dictionary says so, and so at every depth. -/
def Avp.Fits : Avp → Prop
  | .mk code vendor flags value =>
    (hasVendor flags = true ↔ vendor ≠ 0) ∧ value.Fits (isGrouped code vendor)

def AvpData.Fits (group : Bool) : AvpData → Prop
  | .raw _ => group = false
  | .grouped children => group = true ∧ allFit children

def allFit : List Avp → Prop
  | [] => True
  | avp :: avps => avp.Fits ∧ allFit avps

end

/-! ### The round trip -/

theorem parseAvps_encodeAvps {avps : List Avp} (hfits : allFit avps)
    (hsize : (encodeAvps avps).length < 2 ^ 24) (offset : ℕ) :
  parseAvps offset (encodeAvps avps) = .ok avps
  := by
  induction hn : (encodeAvps avps).length using Nat.strong_induction_on
    generalizing avps offset with
  | _ n ih =>
    subst hn
    match avps with
    | [] => exact parseAvps_of_length_lt (by decide) offset
    | .mk code vendor flags value :: rest =>
      obtain ⟨⟨hvendor, hvalue⟩, hrest⟩ := hfits
      have hheader := eight_le_headerSize flags
      rw [encodeAvps_cons] at hsize ih ⊢
      simp only [List.length_append, length_avpHeader] at hsize ih
      have hlength : headerSize flags + (encodeValue value).length < 2 ^ 24 := by omega
      have hzero : hasVendor flags = false → vendor = 0 := by
        intro hflag
        by_contra hne
        rw [hvendor.mpr hne] at hflag
        cases hflag
      have hothers := ih _ (by omega) hrest (by omega)
        (offset + padded (headerSize flags + (encodeValue value).length)) rfl
      cases value with
      | raw bytes =>
        rw [parseAvps_avpHeader hlength hzero (length_padding _), parseValue, hvalue, hothers]
        rfl
      | grouped children =>
        rw [encodeValue] at hlength hothers hsize ih ⊢
        have hchildren := ih _ (by omega) hvalue.2 (by omega) 0 rfl
        rw [parseAvps_avpHeader hlength hzero (length_padding _), parseValue, hvalue.1, hothers,
          hchildren]
        rfl

theorem fromWire_toWire {m : DiameterMsg} (hfits : allFit m.avps)
    (hsize : m.toWire.length < 2 ^ 24) :
  fromWire m.toWire
    = .ok { m with commandCode := u32FromBeBytes (BigEndian.encode 3 m.commandCode.toNat) }
  := by
  obtain ⟨x, y, z, hlength⟩ := exists_encode_three (20 + (encodeAvps m.avps).length)
  obtain ⟨p, q, r, hcode⟩ := exists_encode_three m.commandCode.toNat
  obtain ⟨a₀, a₁, a₂, a₃, hfirst⟩ := exists_u32ToBeBytes m.applicationId
  obtain ⟨b₀, b₁, b₂, b₃, hsecond⟩ := exists_u32ToBeBytes m.hopByHop
  obtain ⟨c₀, c₁, c₂, c₃, hthird⟩ := exists_u32ToBeBytes m.endToEnd
  have hwire : m.toWire = 1 :: x :: y :: z :: m.flags :: p :: q :: r :: a₀ :: a₁ :: a₂ :: a₃
      :: b₀ :: b₁ :: b₂ :: b₃ :: c₀ :: c₁ :: c₂ :: c₃ :: encodeAvps m.avps := by
    simp [DiameterMsg.toWire, encodeDiameterMessage, hlength, hcode, hfirst, hsecond, hthird]
  have hcount : m.toWire.length = 20 + (encodeAvps m.avps).length := by
    rw [hwire]
    simp only [List.length_cons]
    omega
  have hdeclared : declaredLength m.toWire = m.toWire.length := by
    rw [hcount] at hsize ⊢
    have hdecode := @BigEndian.decode_encode_of_lt 3 _ hsize
    rw [hlength] at hdecode
    rwa [hwire]
  have hparse : parseAvps 0 ((m.toWire.take (declaredLength m.toWire)).drop 20) = .ok m.avps := by
    rw [hdeclared, List.take_length, hwire]
    exact parseAvps_encodeAvps hfits (by omega) 0
  refine fromWire_eq_ok_iff.mpr
    ⟨by omega, by rw [hwire]; rfl, by omega, by omega, m.avps, hparse, ?_⟩
  -- the fields are read back from the bytes they were written to
  have happlication := u32FromBeBytes_toBeBytes m.applicationId
  have hhopByHop := u32FromBeBytes_toBeBytes m.hopByHop
  have hendToEnd := u32FromBeBytes_toBeBytes m.endToEnd
  rw [hfirst] at happlication
  rw [hsecond] at hhopByHop
  rw [hthird] at hendToEnd
  simp [messageOf, hwire, hcode, happlication, hhopByHop, hendToEnd]

end

theorem u32FromBeBytes_encode_three_iff (n : UInt32) :
  u32FromBeBytes (BigEndian.encode 3 n.toNat) = n ↔ n.toNat < 2 ^ 24
  := by
  rw [← UInt32.toNat_inj, u32FromBeBytes, BigEndian.decode_encode]
  have hmod : n.toNat % 256 ^ 3 < 2 ^ 32 := (Nat.mod_lt _ (by decide)).trans (by decide)
  rw [UInt32.toNat_ofNat_of_lt' hmod, Nat.mod_eq_iff_lt (by decide), show 256 ^ 3 = 2 ^ 24 by rfl]

/-- A message tree that fits, with a length that can be written, is decoded as itself from its
encoding if and only if its command code can be written. -/
theorem fromWire_toWire_iff [Dictionary] {m : DiameterMsg} (hfits : allFit m.avps)
    (hsize : m.toWire.length < 2 ^ 24) :
  fromWire m.toWire = .ok m ↔ m.commandCode.toNat < 2 ^ 24
  := by
  rw [fromWire_toWire hfits hsize, Except.ok.injEq, ← u32FromBeBytes_encode_three_iff]
  constructor
  · intro h
    exact congrArg DiameterMsg.commandCode h
  · intro h
    rw [h]

def nestedGroups (commandCode : UInt32) : DiameterMsg where
  flags := 0x80
  commandCode := commandCode
  applicationId := 0
  hopByHop := 1
  endToEnd := 2
  avps := [.mk 260 0 0x40 (.grouped [.mk 260 0 0 (.grouped []), .mk 266 10415 0xc0 (.raw [5])])]

/-- The request with the command code of a capabilities exchange is decoded as itself. -/
theorem fromWire_nestedGroups :
  @fromWire oneGroup (nestedGroups 257).toWire = .ok (nestedGroups 257)
  := by
  apply (@fromWire_toWire_iff oneGroup _ _ _).mpr
  · decide
  · simp only [nestedGroups, allFit, Avp.Fits, AvpData.Fits]
    decide
  · decide +kernel

/-- A command code of more than 24 bits is cut. -/
theorem commandCode_cut :
  @allFit oneGroup (nestedGroups (2 ^ 24)).avps ∧ (nestedGroups (2 ^ 24)).toWire.length < 2 ^ 24
    ∧ (@fromWire oneGroup (nestedGroups (2 ^ 24)).toWire).map DiameterMsg.commandCode = .ok 0
  := by
  refine ⟨?_, by decide +kernel, by decide +kernel⟩
  simp only [nestedGroups, allFit, Avp.Fits, AvpData.Fits]
  decide

end Siphon.Diameter
