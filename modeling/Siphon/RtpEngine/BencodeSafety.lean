import Siphon.RtpEngine.BencodeWire

/-!
# Decoding bencode safely

The decoder panics on exactly those inputs in which it comes to a byte string whose declared length
takes its end out of the 64 bits; on every other input it returns a value or an error.
-/

namespace Siphon.RtpEngine

open List Decoded

/-! ### Lengths that leave the 64 bits -/

/-- A byte string whose declared end leaves the 64 bits. -/
def EndsPast (b : Bytes) : Prop :=
  ∃ t data n, b = t ++ 58 :: data ∧ IsLength t n ∧ 2 ^ 64 ≤ t.length + 1 + n

/-- An input in which such a byte string is come to: at its start, as an item of a list, or as a key
or value of a dictionary, what is before it being well formed. -/
inductive Overflows : Bytes → Prop where
  | string {b : Bytes} (hdigit : startsWithDigit b) (h : EndsPast b) : Overflows b
  | item {items : List BencodeValue} {a b : Bytes} (h : WireItems items a) (hb : Overflows b) :
    Overflows (108 :: (a ++ b))
  | key {pairs : List (Bytes × BencodeValue)} {a b : Bytes} (h : WirePairs pairs a)
    (hb : EndsPast b) : Overflows (100 :: (a ++ b))
  | value {pairs : List (Bytes × BencodeValue)} {a t key b : Bytes} (h : WirePairs pairs a)
    (ht : IsLength t key.length) (hb : Overflows b) :
    Overflows (100 :: (a ++ (t ++ 58 :: (key ++ b))))

def Panics {α : Type} (outcome : Except Failure α) : Prop :=
  ∃ failure, outcome = .error failure ∧ failure.isPanic = true

variable {b : Bytes}

theorem EndsPast.startsItem (h : EndsPast b) :
  startsItem b
  := by
  obtain ⟨t, data, n, rfl, ht, -⟩ := h
  exact startsItem_append ht.startsItem _

theorem Overflows.startsItem (h : Overflows b) :
  startsItem b
  := by
  cases h with
  | string _ h => exact h.startsItem
  | item | key | value => rfl

/-! ### They panic -/

variable {failure : Failure}

section

variable {α β : Type}

@[simp] theorem panics_error_iff :
  Panics (.error failure : Except Failure α) ↔ failure.isPanic = true
  := by
  constructor
  · rintro ⟨_, ⟨⟩, h⟩
    exact h
  · exact fun h => ⟨failure, rfl, h⟩

variable {outcome : Except Failure α}

theorem Panics.bind (h : Panics outcome) (f : α → Except Failure β) :
  Panics (outcome.bind f)
  := by
  obtain ⟨failure, rfl, hpanic⟩ := h
  exact ⟨failure, rfl, hpanic⟩

theorem Panics.map (h : Panics outcome) (f : α → β) :
  Panics (outcome.map f)
  := by
  obtain ⟨failure, rfl, hpanic⟩ := h
  exact ⟨failure, rfl, hpanic⟩

end

variable (build : Build)

theorem EndsPast.panics (h : EndsPast b) :
  Panics (decodeString build b)
  := by
  obtain ⟨t, data, n, rfl, ht, hpast⟩ := h
  obtain ⟨s, htext, hs⟩ := ht.exists_text
  rw [decodeString_append build ht.noColon, htext]
  dsimp only
  rw [hs]
  dsimp only
  rw [decodeData, if_neg (by omega)]
  exact ⟨_, rfl, by cases build <;> rfl⟩

variable {input : Bytes}

theorem Overflows.panics (h : Overflows input) (hlen : input.length < 2 ^ 64) :
  Panics (decode build input)
  := by
  induction h with
  | string hdigit h =>
    rw [decode_string build hdigit]
    exact (h.panics build).map _
  | @item items a b h hb ih =>
    simp only [length_cons, length_append] at hlen
    rw [decode_list, decodeItems_append build [] b (by rw [length_append]; omega) h,
      decodeItems_step build _ hb.startsItem]
    exact (ih (by omega)).bind _
  | @key pairs a b h hb =>
    simp only [length_cons, length_append] at hlen
    rw [decode_dict, decodePairs_append build [] b (by rw [length_append]; omega) h,
      decodePairs_step build _ hb.startsItem]
    exact (hb.panics build).bind _
  | @value pairs a t key b h ht hb ih =>
    simp only [length_cons, length_append] at hlen
    rw [decode_dict, decodePairs_append build [] _ (by simp; omega) h,
      decodePairs_step build _ (startsItem_append ht.startsItem _),
      decodeString_of_isLength build ht (by simp; omega)]
    exact (ih (by omega)).bind _

/-! ### Nothing else does -/

/-- What is to be shown of the decoder's outcome on an input. -/
def Explained (input : Bytes) : Except Failure (BencodeValue × Bytes) → Prop
  | .ok (value, rest) => ∃ b, Wire value b ∧ input = b ++ rest
  | .error failure => failure.isPanic = true → Overflows input

/-- What is to be shown of its outcome on the elements of a list or a dictionary. -/
def ExplainedLoop {β : Type} (wrap : List β → BencodeValue) (wire : List β → Bytes → Prop)
    (past : Bytes → Prop) (before : List β) (input : Bytes) :
    Except Failure (BencodeValue × Bytes) → Prop
  | .ok (value, rest) => ∃ elems b, wire elems b ∧ value = wrap (before ++ elems)
    ∧ input = b ++ 101 :: rest
  | .error failure => failure.isPanic = true →
    ∃ elems b tail, wire elems b ∧ input = b ++ tail ∧ past tail

abbrev ExplainedItems :=
  ExplainedLoop .list WireItems Overflows

abbrev ExplainedPairs :=
  ExplainedLoop .dict WirePairs fun tail =>
    EndsPast tail ∨ ∃ t key c, IsLength t key.length ∧ tail = t ++ 58 :: (key ++ c) ∧ Overflows c

namespace ExplainedLoop

variable {β : Type} {wrap : List β → BencodeValue} {wire : List β → Bytes → Prop}
  {past : Bytes → Prop} {outcome : Except Failure (BencodeValue × Bytes)}

/-- What later turns of the loop come to explains it from the turn before them on. -/
theorem cons {before : List β} {elem : β} {a rest : Bytes}
    (h : ExplainedLoop wrap wire past (before ++ [elem]) rest outcome)
    (hcons : ∀ elems b, wire elems b → wire (elem :: elems) (a ++ b)) :
  ExplainedLoop wrap wire past before (a ++ rest) outcome
  := by
  cases outcome with
  | error failure =>
    intro hpanic
    obtain ⟨elems, b, tail, helems, rfl, hpast⟩ := h hpanic
    exact ⟨elem :: elems, a ++ b, tail, hcons _ _ helems, by simp, hpast⟩
  | ok r =>
    obtain ⟨elems, b, helems, hvalue, rfl⟩ := h
    exact ⟨elem :: elems, a ++ b, hcons _ _ helems, by simp [hvalue], by simp⟩

theorem value {tail : Bytes} {byte : UInt8} (h : ExplainedLoop wrap wire past [] tail outcome)
    (hwire : ∀ elems b, wire elems b → Wire (wrap elems) (byte :: b ++ [101]))
    (hover : ∀ elems b tail, wire elems b → past tail → Overflows (byte :: (b ++ tail))) :
  Explained (byte :: tail) outcome
  := by
  cases outcome with
  | error failure =>
    intro hpanic
    obtain ⟨elems, b, tail, helems, rfl, hpast⟩ := h hpanic
    exact hover _ _ _ helems hpast
  | ok r =>
    obtain ⟨elems, b, helems, hvalue, rfl⟩ := h
    exact ⟨byte :: b ++ [101], hvalue ▸ hwire _ _ helems, by simp⟩

end ExplainedLoop

section

variable {build : Build}

theorem decode_shorter {rest : Bytes} {value : BencodeValue}
    (h : decode build input = .ok (value, rest)) :
  rest <:+ input ∧ rest.length < input.length
  := by
  rw [decode] at h
  cases hvalue : decodeValue build input with
  | error failure => rw [hvalue] at h; cases h
  | ok d =>
  rw [hvalue] at h
  cases h
  exact ⟨d.suffix, d.shorter⟩

theorem isLength_of_decodeString {bytes rest : Bytes}
    (h : decodeString build input = .ok (bytes, rest)) :
  ∃ t, IsLength t bytes.length ∧ input = t ++ 58 :: (bytes ++ rest)
  := by
  obtain ⟨t, ht, hinput, s, htext, hs⟩ := decodeString_eq_ok h
  exact ⟨t, ⟨ht, by rw [htext, Option.bind_some, hs]⟩, hinput⟩

theorem endsPast_of_decodeString (h : decodeString build input = .error failure)
    (hpanic : failure.isPanic = true) :
  EndsPast input
  := by
  by_cases hmem : 58 ∈ input
  · obtain ⟨t, data, rfl, ht⟩ := eq_append_cons_of_mem hmem
    rw [decodeString_append build ht] at h
    split at h
    · cases h
      cases hpanic
    rename_i s htext
    split at h
    · cases h
      cases hpanic
    rename_i n hn
    rw [decodeData] at h
    split_ifs at h with hfits hshort
    · cases h
      cases hpanic
    · exact ⟨t, data, n, rfl, ⟨ht, by rw [htext, Option.bind_some, hn]⟩, by omega⟩
  · rw [decodeString_of_not_mem build hmem] at h
    cases h
    cases hpanic

variable {tail : Bytes}

theorem isPanic_of_decodeInteger (h : decodeInteger (105 :: tail) = .error failure) :
  failure.isPanic = false
  := by
  by_cases hmem : 101 ∈ tail
  · obtain ⟨t, rest, rfl, ht⟩ := eq_append_cons_of_mem hmem
    rw [decodeInteger_append ht] at h
    split at h
    · cases h
      rfl
    split at h
    · cases h
      rfl
    · cases h
  · rw [decodeInteger_of_not_mem (by simpa using hmem)] at h
    cases h
    rfl

theorem explained_integer (tail : Bytes) :
  Explained (105 :: tail) (decode build (105 :: tail))
  := by
  rw [decode_integer]
  cases h : decodeInteger (105 :: tail) with
  | error failure =>
    intro hpanic
    rw [isPanic_of_decodeInteger h] at hpanic
    cases hpanic
  | ok r =>
    obtain ⟨t, ht, rfl, s, htext, hs⟩ := decodeInteger_eq_ok h
    exact ⟨105 :: t ++ [101], .integer ⟨ht, by rw [htext, Option.bind_some, hs]⟩, by simp⟩

theorem explained_string (hdigit : startsWithDigit input) :
  Explained input (decode build input)
  := by
  rw [decode_string build hdigit]
  cases h : decodeString build input with
  | error failure => exact fun hpanic => .string hdigit (endsPast_of_decodeString h hpanic)
  | ok r =>
  obtain ⟨t, ht, rfl⟩ := isLength_of_decodeString h
  have hdigit : startsWithDigit t := by
    cases t with
    | nil => cases ht.startsItem
    | cons byte t => exact hdigit
  exact ⟨t ++ 58 :: r.1, .string hdigit ht, by simp⟩

theorem explainedItems_step (hvalue : Explained input (decode build input))
    (hrest : ∀ rest : Bytes, rest.length < input.length → ∀ before,
      ExplainedItems before rest ((decodeItems build before rest).map pair))
    (before : List BencodeValue) :
  ExplainedItems before input ((decodeItems build before input).map pair)
  := by
  cases input with
  | nil =>
    rw [decodeItems]
    intro hpanic
    cases hpanic
  | cons byte tail =>
    by_cases hbyte : byte = 101
    · subst hbyte
      rw [decodeItems_end]
      exact ⟨[], [], .nil, by simp, rfl⟩
    rw [decodeItems_step build before (by simpa [startsItem] using hbyte)]
    cases h : decode build (byte :: tail) with
    | error failure =>
      rw [h] at hvalue
      exact fun hpanic => ⟨[], [], byte :: tail, .nil, rfl, hvalue hpanic⟩
    | ok r =>
      obtain ⟨value, rest⟩ := r
      rw [h] at hvalue
      obtain ⟨a, ha, hinput⟩ := hvalue
      have hlater := hrest rest (decode_shorter h).2 (before ++ [value])
      rw [hinput]
      exact hlater.cons fun _ _ => .cons ha

/-- One turn of the loop over the pairs of a dictionary, given what later turns do. -/
theorem explainedPairs_step
    (hvalue : ∀ rest : Bytes, rest.length < input.length → Explained rest (decode build rest))
    (hrest : ∀ rest : Bytes, rest.length < input.length → ∀ before,
      ExplainedPairs before rest ((decodePairs build before rest).map pair))
    (before : List (Bytes × BencodeValue)) :
  ExplainedPairs before input ((decodePairs build before input).map pair)
  := by
  cases input with
  | nil =>
    rw [decodePairs]
    intro hpanic
    cases hpanic
  | cons byte tail =>
    by_cases hbyte : byte = 101
    · subst hbyte
      rw [decodePairs_end]
      exact ⟨[], [], .nil, by simp, rfl⟩
    rw [decodePairs_step build before (by simpa [startsItem] using hbyte)]
    cases hkey : decodeString build (byte :: tail) with
    | error failure =>
      exact fun hpanic => ⟨[], [], byte :: tail, .nil, rfl,
        .inl (endsPast_of_decodeString hkey hpanic)⟩
    | ok k =>
      obtain ⟨key, afterKey⟩ := k
      obtain ⟨t, ht, hinput⟩ := isLength_of_decodeString hkey
      have hshorter := (decodeString_shorter hkey).2
      have hvalue := hvalue afterKey hshorter
      change ExplainedPairs before _ ((decode build afterKey).bind _)
      cases h : decode build afterKey with
      | error failure =>
        rw [h] at hvalue
        exact fun hpanic => ⟨[], [], byte :: tail, .nil, rfl,
          .inr ⟨t, key, afterKey, ht, hinput, hvalue hpanic⟩⟩
      | ok r =>
        obtain ⟨value, rest⟩ := r
        rw [h] at hvalue
        obtain ⟨a, ha, rfl⟩ := hvalue
        have hlater := hrest rest ((decode_shorter h).2.trans hshorter) (before ++ [(key, value)])
        have hsplit : byte :: tail = t ++ 58 :: key ++ a ++ rest := by simp [hinput]
        rw [hsplit]
        exact hlater.cons fun _ _ => .cons ht ha

theorem explained_list (h : ExplainedItems [] tail ((decodeItems build [] tail).map pair)) :
  Explained (108 :: tail) (decode build (108 :: tail))
  := by
  rw [decode_list]
  exact h.value (fun _ _ => .list) fun _ _ _ => .item

theorem explained_dict (h : ExplainedPairs [] tail ((decodePairs build [] tail).map pair)) :
  Explained (100 :: tail) (decode build (100 :: tail))
  := by
  rw [decode_dict]
  refine h.value (fun _ _ => .dict) ?_
  rintro pairs b tail hpairs (hpast | ⟨t, key, c, ht, rfl, hpast⟩)
  · exact .key hpairs hpast
  · exact .value hpairs ht hpast

theorem decode_unexpected (build : Build) {byte : UInt8} (hinteger : byte ≠ 105)
    (hlist : byte ≠ 108) (hdict : byte ≠ 100) (hdigit : ¬ (48 ≤ byte ∧ byte ≤ 57)) (tail : Bytes) :
  ∃ message, decode build (byte :: tail) = decodeError message
  := by
  rw [decode, decodeValue, dif_neg hinteger, if_neg hlist, if_neg hdict, if_neg hdigit]
  exact ⟨_, rfl⟩

theorem explained (build : Build) (input : Bytes) :
  Explained input (decode build input)
    ∧ (∀ before, ExplainedItems before input ((decodeItems build before input).map pair))
    ∧ ∀ before, ExplainedPairs before input ((decodePairs build before input).map pair)
  := by
  induction hn : input.length using Nat.strong_induction_on generalizing input with
  | _ n ih =>
    subst hn
    have hvalue : Explained input (decode build input) := by
      cases input with
      | nil =>
        rw [decode_nil]
        intro hpanic
        cases hpanic
      | cons byte tail =>
        obtain ⟨-, hitems, hpairs⟩ := ih tail.length (Nat.lt_succ_self _) tail rfl
        by_cases hinteger : byte = 105
        · exact hinteger ▸ explained_integer tail
        by_cases hlist : byte = 108
        · exact hlist ▸ explained_list (hitems [])
        by_cases hdict : byte = 100
        · exact hdict ▸ explained_dict (hpairs [])
        by_cases hdigit : 48 ≤ byte ∧ byte ≤ 57
        · exact explained_string (by simpa [startsWithDigit] using hdigit)
        obtain ⟨message, h⟩ := decode_unexpected build hinteger hlist hdict hdigit tail
        rw [h]
        intro hpanic
        cases hpanic
    refine ⟨hvalue, ?_, ?_⟩
    · exact explainedItems_step hvalue fun rest hlt => (ih _ hlt rest rfl).2.1
    · exact explainedPairs_step (fun rest hlt => (ih _ hlt rest rfl).1)
        fun rest hlt => (ih _ hlt rest rfl).2.2

end

/-! ### Safety -/

theorem panics_decode_iff (hlen : input.length < 2 ^ 64) :
  Panics (decode build input) ↔ Overflows input
  := by
  constructor
  · rintro ⟨failure, h, hpanic⟩
    have hexplained := (explained build input).1
    rw [h] at hexplained
    exact hexplained hpanic
  · intro h
    exact h.panics build hlen

theorem panics_of_decodeFullDict (h : Panics (decodeFullDict build input)) :
  Panics (decode build input)
  := by
  rw [decodeFullDict] at h
  cases hdecode : decode build input with
  | error failure =>
    rw [hdecode] at h
    exact panics_error_iff.mpr (panics_error_iff.mp h)
  | ok r =>
  obtain ⟨failure, h, hpanic⟩ := h
  rw [hdecode] at h
  revert h
  change (if _ then _ else _) = _ → _
  split
  · rintro ⟨⟩
    cases hpanic
  split
  · nofun
  · rintro ⟨⟩
    cases hpanic

/-- What decoding an input safely is: a value or an error is returned, without a slice that is
reversed or out of range and without arithmetic that leaves the 64 bits, and what is left is a
strictly shorter end of the input. -/
structure DecodesSafely (build : Build) (input : Bytes) : Prop where
  decode : ¬ Panics (decode build input)
  decodeFullDict : ¬ Panics (decodeFullDict build input)
  rest : ∀ value rest, RtpEngine.decode build input = .ok (value, rest) →
    rest <:+ input ∧ rest.length < input.length

/-- An input is decoded safely exactly if it does not overflow, in either build. -/
theorem decodesSafely_iff (build : Build) (input : Bytes) (hlen : input.length < 2 ^ 64) :
  DecodesSafely build input ↔ ¬ Overflows input
  := by
  constructor
  · intro h hpast
    exact h.decode ((panics_decode_iff build hlen).mpr hpast)
  intro h
  have hdecode := mt (panics_decode_iff build hlen).mp h
  exact ⟨hdecode, mt (panics_of_decodeFullDict build) hdecode,
    fun value rest => decode_shorter⟩

/-- A dictionary with byte strings, a list and a dictionary in it is decoded safely, whatever is
behind it. -/
theorem decodesSafely_of_nested :
  (encode nestedValue ++ [105, 49]).length < 2 ^ 64
    ∧ DecodesSafely .release (encode nestedValue ++ [105, 49])
  := by
  have hlen : (encode nestedValue ++ [105, 49]).length < 2 ^ 64 := by decide +kernel
  refine ⟨hlen, (decodesSafely_iff .release _ hlen).mpr fun hpast => ?_⟩
  obtain ⟨failure, h, -⟩ := hpast.panics .release hlen
  rw [decode_of_wire .release _ hlen (wire_encode nestedValue (by decide +kernel))] at h
  cases h

/-- The decoder accepts the bytes some value can be written as and nothing else, and a message only
where they are all of it. -/
theorem accepts_iff_wire (build : Build) (input : Bytes) (hlen : input.length < 2 ^ 64) :
  (∀ value rest, decode build input = .ok (value, rest) ↔ ∃ b, Wire value b ∧ input = b ++ rest)
    ∧ ∀ value, decodeFullDict build input = .ok value
      ↔ Wire value input ∧ ∃ pairs, value = .dict pairs
  := by
  have hdecode value rest :
      decode build input = .ok (value, rest) ↔ ∃ b, Wire value b ∧ input = b ++ rest := by
    constructor
    · intro h
      have hexplained := (explained build input).1
      rwa [h] at hexplained
    · rintro ⟨b, hwire, rfl⟩
      exact decode_of_wire build rest hlen hwire
  refine ⟨hdecode, fun value => ⟨fun h => ?_, ?_⟩⟩
  · rw [decodeFullDict] at h
    rcases hd : decode build input with failure | ⟨decoded, rest⟩ <;> rw [hd] at h
    · cases h
    obtain ⟨b, hwire, rfl⟩ := (hdecode decoded rest).mp hd
    cases rest with
    | cons => cases h
    | nil =>
      cases decoded <;> cases h
      exact ⟨by rwa [append_nil], _, rfl⟩
  · rintro ⟨hwire, pairs, rfl⟩
    rw [decodeFullDict, (hdecode _ []).mpr ⟨input, hwire, (append_nil input).symm⟩]
    rfl

theorem accepts_nested_dict :
  (encode nestedValue ++ [105, 49]).length < 2 ^ 64
    ∧ decode .release (encode nestedValue ++ [105, 49]) = .ok (nestedValue, [105, 49])
    ∧ decodeFullDict .release (encode nestedValue) = .ok nestedValue
  := by
  have hlen : (encode nestedValue ++ [105, 49]).length < 2 ^ 64 := by decide +kernel
  have hvalue : (encode nestedValue).length < 2 ^ 64 := by decide +kernel
  have hwire := wire_encode nestedValue hvalue
  refine ⟨hlen, ((accepts_iff_wire .release _ hlen).1 _ _).mpr ⟨_, hwire, rfl⟩, ?_⟩
  exact ((accepts_iff_wire .release _ hvalue).2 _).mpr ⟨hwire, _, rfl⟩

/-- The length `18446744073709551615` and the separator. -/
def hugeString : Bytes :=
  [49, 56, 52, 52, 54, 55, 52, 52, 48, 55, 51, 55, 48, 57, 53, 53, 49, 54, 49, 53, 58]

/-- A length that takes the end of the data out of the 64 bits panics in either build: the sum wraps
to a slice that ends before it starts, or is refused. -/
theorem hugeString_panics :
  decodeString .release hugeString = .error (.sliceIndex 21 20)
    ∧ decodeString .debug hugeString = .error .addOverflow
    ∧ ¬ DecodesSafely .release hugeString ∧ ¬ DecodesSafely .debug hugeString
  := by
  have hrelease : decodeString .release hugeString = .error (.sliceIndex 21 20) := by
    decide +kernel
  have hdebug : decodeString .debug hugeString = .error .addOverflow := by
    decide +kernel
  refine ⟨hrelease, hdebug, fun h => h.decode ?_, fun h => h.decode ?_⟩
  · rw [decode_string .release (by decide), hrelease]
    exact ⟨_, rfl, rfl⟩
  · rw [decode_string .debug (by decide), hdebug]
    exact ⟨_, rfl, rfl⟩

end Siphon.RtpEngine
