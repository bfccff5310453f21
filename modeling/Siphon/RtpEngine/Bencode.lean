import Siphon.Library.Decimal
import Siphon.Library.Utf8

/-!
# Bencode

The values of the NG protocol and their wire form: byte strings `<length>:<data>`, integers
`i<number>e`, lists `l<items>e` and dictionaries `d<key><value>…e`.

The decoder computes with 64-bit lengths and takes slices of its input.  A sum or difference that
leaves the 64 bits panics in a debug build and wraps in a release build; a slice that ends before it
starts or past the end of the input panics in both.
-/

namespace Siphon.RtpEngine

open List Decimal

inductive BencodeValue where
  | string (bytes : Bytes)
  | integer (number : Int64)
  | list (items : List BencodeValue)
  | dict (pairs : List (Bytes × BencodeValue))

/-! ### Encoding -/

/-- A byte string, also as the key of a dictionary. -/
def encodeString (bytes : Bytes) : Bytes :=
  Utf8.encode (display bytes.length) ++ 58 :: bytes

mutual

def encode : BencodeValue → Bytes
  | .string bytes => encodeString bytes
  | .integer number => 105 :: Utf8.encode (displayInt number.toInt) ++ [101]
  | .list items => 108 :: encodeItems items ++ [101]
  | .dict pairs => 100 :: encodePairs pairs ++ [101]

def encodeItems : List BencodeValue → Bytes
  | [] => []
  | item :: items => encode item ++ encodeItems items

def encodePairs : List (Bytes × BencodeValue) → Bytes
  | [] => []
  | (key, value) :: pairs => encodeString key ++ encode value ++ encodePairs pairs

end

/-! ### Machine arithmetic and slices -/

inductive Build where
  | debug
  | release

/-- Why nothing is decoded: the error that is returned, or a panic. -/
inductive Failure where
  /-- `RtpEngineError::Decode` -/
  | decode (message : Text)
  /-- attempt to add with overflow -/
  | addOverflow
  /-- attempt to subtract with overflow -/
  | subOverflow
  /-- slice index starts at `start` but ends at `stop`, or `stop` is out of range -/
  | sliceIndex (start stop : ℕ)
deriving DecidableEq

def Failure.isPanic : Failure → Bool
  | .decode _ => false
  | _ => true

def decodeError {α : Type} (message : Text) : Except Failure α :=
  .error (.decode message)

def Build.add (build : Build) (a b : ℕ) : Except Failure ℕ :=
  if a + b < 2 ^ 64 then .ok (a + b)
  else
    match build with
    | .debug => .error .addOverflow
    | .release => .ok ((a + b) % 2 ^ 64)

def Build.sub (build : Build) (a b : ℕ) : Except Failure ℕ :=
  if b ≤ a then .ok (a - b)
  else
    match build with
    | .debug => .error .subOverflow
    | .release => .ok (2 ^ 64 + a - b)

def slice (input : Bytes) (start stop : ℕ) : Except Failure Bytes :=
  if start ≤ stop ∧ stop ≤ input.length then .ok ((input.drop start).take (stop - start))
  else .error (.sliceIndex start stop)

/-! ### Decoding -/

def decodeString (build : Build) (input : Bytes) : Except Failure (Bytes × Bytes) :=
  match Slice.position [58] input with
  | none => decodeError "string missing ':' separator".toList
  | some colonPosition => do
    match Utf8.decode (← slice input 0 colonPosition) with
    | none => decodeError "invalid UTF-8 in string length".toList
    | some lengthStr =>
      match parse (2 ^ 64) lengthStr with
      | none => decodeError ("invalid string length: ".toList ++ lengthStr)
      | some length => do
        -- at most the length of the input, as the position is one in it
        let dataStart := colonPosition + 1
        let dataEnd ← build.add dataStart length
        if input.length < dataEnd then
          let available ← build.sub input.length dataStart
          decodeError ("string length ".toList ++ display length
            ++ " exceeds available data (".toList ++ display available ++ ")".toList)
        else
          let bytes ← slice input dataStart dataEnd
          let rest ← slice input dataEnd input.length
          .ok (bytes, rest)

def decodeInteger (input : Bytes) : Except Failure (Int64 × Bytes) :=
  match Slice.position [101] input with
  | none => decodeError "integer missing 'e' terminator".toList
  | some endPosition => do
    match Utf8.decode (← slice input 1 endPosition) with
    | none => decodeError "invalid UTF-8 in integer".toList
    | some numberStr =>
      match parseInt (2 ^ 63) numberStr with
      | none => decodeError ("invalid integer: ".toList ++ numberStr)
      | some number => do
        let rest ← slice input (endPosition + 1) input.length
        .ok (Int64.ofInt number, rest)

/-- A value and what follows it, which is less than what it was decoded from. -/
structure Decoded (input : Bytes) where
  value : BencodeValue
  rest : Bytes
  suffix : rest <:+ input
  shorter : rest.length < input.length

def Decoded.pair {input : Bytes} (d : Decoded input) : BencodeValue × Bytes :=
  (d.value, d.rest)

def Decoded.within {input outer : Bytes} (d : Decoded input) (h : input <:+ outer) :
    Decoded outer :=
  ⟨d.value, d.rest, d.suffix.trans h, d.shorter.trans_le h.length_le⟩

variable (build : Build)

theorem Build.add_of_lt {a b : ℕ} (h : a + b < 2 ^ 64) :
  build.add a b = .ok (a + b)
  := by
  rw [Build.add.eq_def, if_pos h]

theorem Build.sub_of_le {a b : ℕ} (h : b ≤ a) :
  build.sub a b = .ok (a - b)
  := by
  rw [Build.sub.eq_def, if_pos h]

variable {input : Bytes}

theorem slice_of_le {start stop : ℕ} (hstart : start ≤ stop) (hstop : stop ≤ input.length) :
  slice input start stop = .ok ((input.drop start).take (stop - start))
  := by
  rw [slice, if_pos ⟨hstart, hstop⟩]

theorem slice_to_end {start : ℕ} (h : start ≤ input.length) :
  slice input start input.length = .ok (input.drop start)
  := by
  rw [slice_of_le h le_rfl, take_of_length_le (by rw [length_drop])]

theorem slice_of_lt {start stop : ℕ} (h : stop < start) :
  slice input start stop = .error (.sliceIndex start stop)
  := by
  rw [slice, if_neg (by omega)]

/-- The panic of a byte string whose data ends past the 64 bits. -/
def Build.overflow (build : Build) (start length : ℕ) : Failure :=
  match build with
  | .debug => .addOverflow
  | .release => .sliceIndex start ((start + length) % 2 ^ 64)

/-- What decoding a byte string does once its length is read. -/
def decodeData (build : Build) (start length : ℕ) (data : Bytes) : Except Failure (Bytes × Bytes) :=
  if start + length < 2 ^ 64 then
    if data.length < length then
      decodeError ("string length ".toList ++ display length
        ++ " exceeds available data (".toList ++ display data.length ++ ")".toList)
    else .ok (data.take length, data.drop length)
  else .error (build.overflow start length)

/-- Decoding a byte string, cut at its separator. -/
theorem decodeString_append {t : Bytes} (ht : 58 ∉ t) (data : Bytes) :
  decodeString build (t ++ 58 :: data) =
    match Utf8.decode t with
    | none => decodeError "invalid UTF-8 in string length".toList
    | some lengthStr =>
      match parse (2 ^ 64) lengthStr with
      | none => decodeError ("invalid string length: ".toList ++ lengthStr)
      | some length => decodeData build (t.length + 1) length data
  := by
  have hlen : (t ++ 58 :: data).length = t.length + 1 + data.length := by simp; omega
  have hpos : Slice.position [58] (t ++ [58] ++ data) = some t.length := Slice.position_append ht
  have hslice : slice (t ++ 58 :: data) 0 t.length = .ok t := by
    rw [slice_of_le (Nat.zero_le _) (by omega)]
    simp
  have hdata (n : ℕ) : (t ++ 58 :: data).drop (t.length + 1 + n) = data.drop n := by
    rw [← drop_drop]
    simp
  rw [append_assoc, singleton_append] at hpos
  rw [decodeString, hpos]
  dsimp only
  rw [hslice]
  dsimp only [bind, Except.bind]
  split
  · rfl
  split
  · rfl
  rename_i length hlength
  have hlt := (parse_eq_some hlength).2.2
  rw [decodeData]
  by_cases hfits : t.length + 1 + length < 2 ^ 64
  · rw [if_pos hfits, build.add_of_lt hfits, hlen]
    dsimp only
    by_cases hshort : data.length < length
    · rw [if_pos hshort, if_pos (by omega), build.sub_of_le (by omega)]
      simp
    · rw [if_neg hshort, if_neg (by omega), slice_of_le (by omega) (by omega), ← hlen,
        slice_to_end (by omega), hdata 0, hdata length, Nat.add_sub_cancel_left]
      rfl
  · rw [if_neg hfits]
    cases build with
    | debug => rw [Build.add.eq_def, if_neg hfits]; rfl
    | release =>
    -- the sum wraps to less than where the data starts
    have hwraps : (t.length + 1 + length) % 2 ^ 64 < t.length + 1 := by omega
    rw [Build.add.eq_def, if_neg hfits]
    dsimp only
    rw [if_neg (by omega), slice_of_lt hwraps]
    rfl

theorem decodeString_of_not_mem (h : 58 ∉ input) :
  decodeString build input = decodeError "string missing ':' separator".toList
  := by
  rw [decodeString, Slice.position_singleton_of_not_mem h]

section

variable {build : Build} {bytes rest : Bytes} (h : decodeString build input = .ok (bytes, rest))
include h

theorem decodeString_eq_ok :
  ∃ t, 58 ∉ t ∧ input = t ++ 58 :: (bytes ++ rest)
    ∧ ∃ lengthStr, Utf8.decode t = some lengthStr
      ∧ parse (2 ^ 64) lengthStr = some bytes.length
  := by
  by_cases hmem : 58 ∈ input
  · obtain ⟨t, data, rfl, ht⟩ := eq_append_cons_of_mem hmem
    rw [decodeString_append build ht] at h
    split at h
    · cases h
    rename_i lengthStr htext
    split at h
    · cases h
    rename_i length hlength
    rw [decodeData] at h
    split_ifs at h with hfits hshort
    · cases h
    · cases h
      rw [take_append_drop, length_take, Nat.min_eq_left (by omega)]
      exact ⟨t, ht, rfl, lengthStr, htext, hlength⟩
  · rw [decodeString_of_not_mem build hmem] at h
    cases h

theorem decodeString_shorter :
  rest <:+ input ∧ rest.length < input.length
  := by
  obtain ⟨t, -, rfl, -⟩ := decodeString_eq_ok h
  constructor
  · exact ⟨t ++ 58 :: bytes, by simp⟩
  · simp
    omega

end

theorem decodeInteger_append {t : Bytes} (ht : 101 ∉ t) (rest : Bytes) :
  decodeInteger (105 :: (t ++ 101 :: rest)) =
    match Utf8.decode t with
    | none => decodeError "invalid UTF-8 in integer".toList
    | some numberStr =>
      match parseInt (2 ^ 63) numberStr with
      | none => decodeError ("invalid integer: ".toList ++ numberStr)
      | some number => .ok (Int64.ofInt number, rest)
  := by
  have hlen : (105 :: (t ++ 101 :: rest)).length = t.length + 2 + rest.length := by simp; omega
  have hpos : Slice.position [101] ((105 :: t) ++ [101] ++ rest) = some (105 :: t).length :=
    Slice.position_append (by simpa using ht)
  rw [append_assoc, singleton_append, cons_append, length_cons] at hpos
  rw [decodeInteger, hpos]
  dsimp only [bind, Except.bind]
  rw [slice_of_le (by omega) (by omega), slice_to_end (by omega)]
  simp

theorem decodeInteger_of_not_mem (h : 101 ∉ input) :
  decodeInteger input = decodeError "integer missing 'e' terminator".toList
  := by
  rw [decodeInteger, Slice.position_singleton_of_not_mem h]

theorem decodeInteger_eq_ok {tail rest : Bytes} {number : Int64}
    (h : decodeInteger (105 :: tail) = .ok (number, rest)) :
  ∃ t, 101 ∉ t ∧ tail = t ++ 101 :: rest
    ∧ ∃ numberStr, Utf8.decode t = some numberStr
      ∧ (parseInt (2 ^ 63) numberStr).map Int64.ofInt = some number
  := by
  by_cases hmem : 101 ∈ tail
  · obtain ⟨t, data, rfl, ht⟩ := eq_append_cons_of_mem hmem
    rw [decodeInteger_append ht] at h
    split at h
    · cases h
    rename_i numberStr htext
    split at h
    · cases h
    · rename_i i hi
      cases h
      exact ⟨t, ht, rfl, numberStr, htext, by rw [hi]; rfl⟩
  · rw [decodeInteger_of_not_mem (by simpa using hmem)] at h
    cases h

theorem decodeInteger_shorter {byte : UInt8} {tail rest : Bytes} {number : Int64}
    (hbyte : byte = 105) (h : decodeInteger (byte :: tail) = .ok (number, rest)) :
  rest <:+ byte :: tail ∧ rest.length < (byte :: tail).length
  := by
  subst hbyte
  obtain ⟨t, -, rfl, -⟩ := decodeInteger_eq_ok h
  constructor
  · exact ⟨105 :: (t ++ [101]), by simp⟩
  · simp
    omega

mutual

def decodeValue (build : Build) (input : Bytes) : Except Failure (Decoded input) :=
  match input with
  | [] => decodeError "empty input".toList
  | byte :: tail =>
    if hbyte : byte = 105 then
      match h : decodeInteger (byte :: tail) with
      | .error failure => .error failure
      | .ok (number, rest) =>
        have hrest := decodeInteger_shorter hbyte h
        .ok ⟨.integer number, rest, hrest.1, hrest.2⟩
    else if byte = 108 then
      (decodeItems build [] tail).map (·.within (suffix_cons byte tail))
    else if byte = 100 then
      (decodePairs build [] tail).map (·.within (suffix_cons byte tail))
    else if 48 ≤ byte ∧ byte ≤ 57 then
      match h : decodeString build (byte :: tail) with
      | .error failure => .error failure
      | .ok (bytes, rest) =>
        have hrest := decodeString_shorter h
        .ok ⟨.string bytes, rest, hrest.1, hrest.2⟩
    else
      decodeError ("unexpected byte 0x".toList ++ (Nat.toDigits 16 byte.toNat).leftpad 2 '0'
        ++ " at start of value".toList)
termination_by (input.length, 0)
decreasing_by
  · exact Prod.Lex.left _ _ (Nat.lt_succ_self _)
  · exact Prod.Lex.left _ _ (Nat.lt_succ_self _)

def decodeItems (build : Build) (items : List BencodeValue) (remaining : Bytes) :
    Except Failure (Decoded remaining) :=
  match remaining with
  | [] => decodeError "list missing 'e' terminator".toList
  | byte :: tail =>
    if byte = 101 then .ok ⟨.list items, tail, suffix_cons byte tail, Nat.lt_succ_self _⟩
    else
      match decodeValue build (byte :: tail) with
      | .error failure => .error failure
      | .ok d => (decodeItems build (items ++ [d.value]) d.rest).map (·.within d.suffix)
termination_by (remaining.length, 1)
decreasing_by
  · exact Prod.Lex.right _ Nat.one_pos
  · exact Prod.Lex.left _ _ d.shorter

def decodePairs (build : Build) (pairs : List (Bytes × BencodeValue)) (remaining : Bytes) :
    Except Failure (Decoded remaining) :=
  match remaining with
  | [] => decodeError "dict missing 'e' terminator".toList
  | byte :: tail =>
    if byte = 101 then .ok ⟨.dict pairs, tail, suffix_cons byte tail, Nat.lt_succ_self _⟩
    else
      match h : decodeString build (byte :: tail) with
      | .error failure => .error failure
      | .ok (key, rest) =>
        match decodeValue build rest with
        | .error failure => .error failure
        | .ok d =>
          (decodePairs build (pairs ++ [(key, d.value)]) d.rest).map
            (·.within (d.suffix.trans (decodeString_shorter h).1))
termination_by (remaining.length, 1)
decreasing_by
  · exact Prod.Lex.left _ _ (decodeString_shorter h).2
  · exact Prod.Lex.left _ _ (d.shorter.trans (decodeString_shorter h).2)

end

def decode (build : Build) (input : Bytes) : Except Failure (BencodeValue × Bytes) :=
  (decodeValue build input).map Decoded.pair

def decodeFullDict (build : Build) (input : Bytes) : Except Failure BencodeValue := do
  let (value, remaining) ← decode build input
  if remaining ≠ [] then
    decodeError (display remaining.length ++ " trailing bytes after value".toList)
  else
    match value with
    | .dict pairs => .ok (.dict pairs)
    | _ => decodeError "expected dictionary at top level".toList

end Siphon.RtpEngine
