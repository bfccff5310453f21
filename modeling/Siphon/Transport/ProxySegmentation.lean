import Siphon.Transport.ProxyProtocol

/-!
# The PROXY header and the way a connection is cut

A verdict on the head of a connection is not changed by what follows, and is reached after a bounded
number of bytes.
-/

namespace Siphon.ProxyProtocol

open List

/-! ### Verdicts that are final -/

/-- A verdict that is final and, if it is on a header, on one of the given length. -/
structure ProxyHeader.Settles (verdict : ProxyHeader) (n : ℕ) : Prop where
  final : verdict ≠ .needMore
  consumed : ∀ m ∈ verdict.consumed, m = n

theorem settles_invalid (n : ℕ) :
  ProxyHeader.invalid.Settles n
  := ⟨nofun, nofun⟩

theorem settles_noAddresses (n : ℕ) :
  (ProxyHeader.noAddresses n).Settles n
  := ⟨nofun, fun _ h => (Option.some.inj h).symm⟩

theorem settles_decided (addresses : ProxiedAddresses) (n : ℕ) :
  (ProxyHeader.decided addresses n).Settles n
  := ⟨nofun, fun _ h => (Option.some.inj h).symm⟩

/-! ### More bytes -/

/-- What is to be shown of a parser: a verdict that is final stays the same when more bytes come,
and the header it is on has arrived. -/
structure Stable (parse : Bytes → ProxyHeader) (buffer : Bytes) : Prop where
  append : parse buffer ≠ .needMore → ∀ s, parse (buffer ++ s) = parse buffer
  consumed_le : ∀ n ∈ (parse buffer).consumed, n ≤ buffer.length

variable {buffer : Bytes}

theorem Stable.congr {f g : Bytes → ProxyHeader} (h : Stable f buffer)
    (heq : ∀ s, g (buffer ++ s) = f (buffer ++ s)) :
  Stable g buffer
  := by
  have hbuffer : g buffer = f buffer := by simpa using heq []
  constructor
  · intro hfinal s
    rw [hbuffer] at hfinal ⊢
    rw [heq, h.append hfinal]
  · rw [hbuffer]
    exact h.consumed_le

/-! ### Version 2 -/

theorem settles_parseV2Command (verCmd family : UInt8) (n : ℕ) (body : Bytes) :
  (parseV2Command verCmd family n body).Settles n
  := by
  simp only [parseV2Command, parseV2Addresses]
  split_ifs
  · exact settles_noAddresses n
  · exact settles_invalid n
  · exact settles_decided _ n
  · exact settles_invalid n
  · exact settles_decided _ n
  · exact settles_noAddresses n
  · exact settles_invalid n

theorem slice_append {body : Bytes} {stop : ℕ} (h : stop ≤ body.length) (start : ℕ) (s : Bytes) :
  slice (body ++ s) start stop = slice body start stop
  := by
  rw [slice, slice, drop_append, take_append]
  have hnone : stop - start - (body.drop start).length = 0 := by
    rw [length_drop]
    omega
  rw [hnone, take_zero, append_nil]

theorem getD_append_of_lt {b : Bytes} {i : ℕ} (h : i < b.length) (s : Bytes) :
  (b ++ s).getD i 0 = b.getD i 0
  := by
  rw [getD_eq_getElem?_getD, List.getElem?_append_left h, getD_eq_getElem?_getD]

theorem parseV2_append (h : v2HeaderLen ≤ buffer.length) (s : Bytes) :
  parseV2 (buffer ++ s) =
    if buffer.getD 12 0 >>> 4 ≠ 0x02 then .invalid
    else if v2MaxBody < BigEndian.decode (slice buffer 14 16) then .invalid
    else if (buffer ++ s).length < v2HeaderLen + BigEndian.decode (slice buffer 14 16) then
      .needMore
    else
      parseV2Command (buffer.getD 12 0) (buffer.getD 13 0)
        (v2HeaderLen + BigEndian.decode (slice buffer 14 16))
        (slice (buffer ++ s) v2HeaderLen (v2HeaderLen + BigEndian.decode (slice buffer 14 16)))
  := by
  have hlen : 16 ≤ buffer.length := h
  have hheader : ¬ (buffer ++ s).length < v2HeaderLen := by
    rw [length_append]
    omega
  rw [parseV2, if_neg hheader, getD_append_of_lt (by omega), getD_append_of_lt (by omega),
    slice_append hlen]

theorem stable_parseV2 (buffer : Bytes) :
  Stable parseV2 buffer
  := by
  by_cases hheader : buffer.length < v2HeaderLen
  · have hmore : parseV2 buffer = .needMore := by rw [parseV2, if_pos hheader]
    exact ⟨fun h => absurd hmore h, by rw [hmore]; nofun⟩
  have hparse := parseV2_append (Nat.le_of_not_lt hheader)
  have hbuffer := hparse []
  rw [append_nil] at hbuffer
  constructor
  · intro hfinal s
    have hlen : (buffer ++ s).length = buffer.length + s.length := length_append
    rw [hbuffer] at hfinal
    rw [hparse, hbuffer]
    split_ifs at hfinal ⊢
    · rfl
    · rfl
    · exact absurd rfl hfinal
    · omega
    · exact absurd rfl hfinal
    · rw [slice_append (by omega)]
  · rw [hbuffer]
    split_ifs
    · nofun
    · nofun
    · nofun
    · intro n hn
      rw [(settles_parseV2Command _ _ _ _).consumed n hn]
      omega

/-! ### Signatures -/

variable {signature : Bytes}

theorem startsWithOrIsPrefixOf_of_prefix (h : signature <+: buffer) :
  startsWithOrIsPrefixOf buffer signature = true
  := by
  rw [startsWithOrIsPrefixOf, if_pos h.length_le]
  exact isPrefixOf_iff_prefix.mpr h

theorem not_startsWithOrIsPrefixOf (hlen : signature.length ≤ buffer.length)
    (h : ¬ signature <+: buffer) :
  ¬ startsWithOrIsPrefixOf buffer signature = true
  := by
  rwa [startsWithOrIsPrefixOf, if_pos hlen, isPrefixOf_iff_prefix]

theorem startsWithOrIsPrefixOf_of_append {s : Bytes}
    (h : startsWithOrIsPrefixOf (buffer ++ s) signature = true) :
  startsWithOrIsPrefixOf buffer signature = true
  := by
  have hbuffer : buffer <+: buffer ++ s := prefix_append buffer s
  rw [startsWithOrIsPrefixOf] at h ⊢
  split at h <;> rw [List.isPrefixOf_iff_prefix] at h
  · split <;> rw [List.isPrefixOf_iff_prefix]
    · exact prefix_of_prefix_length_le h hbuffer (by omega)
    · exact prefix_of_prefix_length_le hbuffer h (by omega)
  · rename_i hshort
    rw [length_append] at hshort
    rw [if_neg (by omega), isPrefixOf_iff_prefix]
    exact hbuffer.trans h

theorem not_v2Signature_of_v1Prefix (h : v1Prefix <+: buffer) :
  ¬ v2Signature <+: buffer
  := by
  intro h'
  have hprefix := prefix_of_prefix_length_le h h' (by decide)
  revert hprefix
  decide

section

variable [StdAddr]

/-! ### Version 1 -/

theorem settles_parseV1Addresses (n : ℕ) (family : UInt8) (fields : List Text) :
  (parseV1Addresses n family fields).Settles n
  := by
  rw [parseV1Addresses.eq_def]
  split
  · split
    · exact settles_invalid n
    · split
      · exact settles_invalid n
      · exact settles_decided _ n
  · exact settles_invalid n

theorem settles_parseV1Fields (n : ℕ) (fields : List Text) :
  (parseV1Fields n fields).Settles n
  := by
  rw [parseV1Fields.eq_def]
  split
  · split_ifs
    · exact settles_invalid n
    · exact settles_parseV1Addresses n _ _
    · exact settles_parseV1Addresses n _ _
    · exact settles_noAddresses n
    · exact settles_invalid n
  · exact settles_invalid n

/-- The line ends at its first line end, and a line that is too long stays so. -/
theorem stable_parseV1 (buffer : Bytes) :
  Stable parseV1 buffer
  := by
  constructor
  · intro hfinal s
    rw [parseV1] at hfinal
    cases hend : Slice.position crlf buffer with
    | none =>
      rw [hend] at hfinal
      dsimp only at hfinal
      split at hfinal
      · rename_i hlong
        have hbuffer : parseV1 buffer = .invalid := by rw [parseV1, hend]; exact if_pos hlong
        rw [hbuffer, parseV1]
        split
        · exact if_pos (by rw [length_append]; omega)
        -- the line end that comes later is past the maximal length
        rename_i lineEnd hlate
        have hnot := Slice.position_of_append hlate
        rw [hend] at hnot
        have hcrlf : crlf.length = 2 := rfl
        split at hnot
        · cases hnot
        · exact if_pos (by omega)
      · exact absurd rfl hfinal
    | some lineEnd =>
      have hle := (Slice.position_eq_some_iff.mp hend).1
      rw [parseV1, parseV1, Slice.position_append_of_eq_some hend, hend]
      dsimp only
      rw [take_append_of_le_length hle]
  · intro n hn
    rw [parseV1] at hn
    split at hn
    · split at hn <;> cases hn
    rename_i lineEnd hend
    obtain ⟨hle, hpat, -⟩ := Slice.position_eq_some_iff.mp hend
    have hlen := hpat.length_le
    have hcrlf : crlf.length = 2 := rfl
    rw [length_drop] at hlen
    dsimp only at hn
    split at hn
    · cases hn
    split at hn
    · cases hn
    · rw [(settles_parseV1Fields _ _).consumed n hn]
      omega

/-! ### The head of a connection -/

theorem parse_of_v2Signature (h : v2Signature <+: buffer) :
  parse buffer = parseV2 buffer
  := by
  rw [parse, if_pos (List.isPrefixOf_iff_prefix.mpr h)]

theorem parse_of_v1Prefix (h : v1Prefix <+: buffer) :
  parse buffer = parseV1 buffer
  := by
  have hv2 := not_v2Signature_of_v1Prefix h
  rw [← isPrefixOf_iff_prefix] at h hv2
  rw [parse, if_neg hv2, if_pos h]

theorem parse_of_no_signature (h2 : ¬ v2Signature <+: buffer) (h1 : ¬ v1Prefix <+: buffer) :
  parse buffer =
    if startsWithOrIsPrefixOf buffer v1Prefix || startsWithOrIsPrefixOf buffer v2Signature then
      .needMore
    else .invalid
  := by
  rw [← isPrefixOf_iff_prefix] at h1 h2
  rw [parse, if_neg h2, if_neg h1]

theorem parse_of_neither (h2 : ¬ startsWithOrIsPrefixOf buffer v2Signature = true)
    (h1 : ¬ startsWithOrIsPrefixOf buffer v1Prefix = true) :
  parse buffer = .invalid
  := by
  rw [parse_of_no_signature (mt startsWithOrIsPrefixOf_of_prefix h2)
    (mt startsWithOrIsPrefixOf_of_prefix h1), if_neg]
  rw [Bool.or_eq_true, not_or]
  exact ⟨h1, h2⟩

theorem stable_parse (buffer : Bytes) :
  Stable parse buffer
  := by
  have hbuffer (s : Bytes) : buffer <+: buffer ++ s := prefix_append buffer s
  by_cases h2 : v2Signature <+: buffer
  · exact (stable_parseV2 buffer).congr fun s => parse_of_v2Signature (h2.trans (hbuffer s))
  by_cases h1 : v1Prefix <+: buffer
  · exact (stable_parseV1 buffer).congr fun s => parse_of_v1Prefix (h1.trans (hbuffer s))
  have hparse := parse_of_no_signature h2 h1
  split at hparse
  · exact ⟨fun h => absurd hparse h, by rw [hparse]; nofun⟩
  rename_i hneither
  rw [Bool.or_eq_true, not_or] at hneither
  refine ⟨fun _ s => ?_, by rw [hparse]; nofun⟩
  rw [hparse]
  exact parse_of_neither (mt startsWithOrIsPrefixOf_of_append hneither.2)
    (mt startsWithOrIsPrefixOf_of_append hneither.1)

theorem parse_ne_needMore_of_lt (h : max v1MaxLen (v2HeaderLen + v2MaxBody) < buffer.length) :
  parse buffer ≠ .needMore
  := by
  obtain ⟨hv1, hv2⟩ := Nat.max_lt.mp h
  by_cases h2 : v2Signature <+: buffer
  · rw [parse_of_v2Signature h2, parseV2]
    dsimp only
    split_ifs
    · omega
    · nofun
    · nofun
    · omega
    · exact (settles_parseV2Command _ _ _ _).final
  by_cases h1 : v1Prefix <+: buffer
  · rw [parse_of_v1Prefix h1, parseV1]
    split
    · rw [if_pos hv1.le]
      nofun
    dsimp only
    split
    · nofun
    · split
      · nofun
      · exact (settles_parseV1Fields _ _).final
  have hlen : v1MaxLen = 108 ∧ v1Prefix.length = 6 ∧ v2Signature.length = 12 := ⟨rfl, rfl, rfl⟩
  rw [parse_of_neither (not_startsWithOrIsPrefixOf (by omega) h2)
    (not_startsWithOrIsPrefixOf (by omega) h1)]
  nofun

/-! ### The reader -/

theorem readProxyHeader_of_final (h : parse buffer ≠ .needMore) (reads : List ReadResult) :
  readProxyHeader buffer reads = (.ok (parse buffer, buffer), reads)
  := by
  rw [readProxyHeader.eq_def]
  split
  all_goals first | rfl | exact absurd ‹_› h

theorem readProxyHeader_of_needMore {chunk : Bytes} (h : parse buffer = .needMore)
    (hchunk : chunk ≠ []) (reads : List ReadResult) :
  readProxyHeader buffer (.ok chunk :: reads) = readProxyHeader (buffer ++ chunk) reads
  := by
  obtain ⟨b, chunk, rfl⟩ := exists_cons_of_ne_nil hchunk
  rw [readProxyHeader.eq_def, h]

section

variable {chunks : List Bytes} (hchunks : [] ∉ chunks) (buffer : Bytes) (more : List ReadResult)
include hchunks

theorem readProxyHeader_chunks (h : parse (buffer ++ chunks.flatten) ≠ .needMore) :
  ∃ taken rest, chunks = taken ++ rest
    ∧ parse (buffer ++ taken.flatten) = parse (buffer ++ chunks.flatten)
    ∧ readProxyHeader buffer (chunks.map .ok ++ more)
      = (.ok (parse (buffer ++ chunks.flatten), buffer ++ taken.flatten), rest.map .ok ++ more)
  := by
  induction chunks generalizing buffer with
  | nil =>
    rw [flatten_nil, append_nil] at h ⊢
    exact ⟨[], [], rfl, by simp, by simp [readProxyHeader_of_final h]⟩
  | cons chunk chunks ih =>
    rw [mem_cons, not_or] at hchunks
    by_cases hfinal : parse buffer = .needMore
    · rw [flatten_cons, ← append_assoc] at h ⊢
      obtain ⟨taken, rest, rfl, hparse, hread⟩ := ih hchunks.2 (buffer ++ chunk) h
      refine ⟨chunk :: taken, rest, rfl, ?_, ?_⟩
      · rw [flatten_cons, ← append_assoc, hparse]
      · rw [map_cons, cons_append, readProxyHeader_of_needMore hfinal (Ne.symm hchunks.1), hread,
          flatten_cons, ← append_assoc]
    · have hsame := (stable_parse buffer).append hfinal (chunk :: chunks).flatten
      rw [hsame]
      exact ⟨[], chunk :: chunks, rfl, by simp, by simp [readProxyHeader_of_final hfinal]⟩

theorem readProxyHeader_waits (h : parse (buffer ++ chunks.flatten) = .needMore) :
  readProxyHeader buffer (chunks.map .ok ++ more)
    = readProxyHeader (buffer ++ chunks.flatten) more
  := by
  induction chunks generalizing buffer with
  | nil => simp
  | cons chunk chunks ih =>
  rw [mem_cons, not_or] at hchunks
  rw [flatten_cons, ← append_assoc] at h ⊢
  have hmore : parse buffer = .needMore := by
    by_contra hfinal
    rw [append_assoc, (stable_parse buffer).append hfinal] at h
    exact hfinal h
  rw [map_cons, cons_append, readProxyHeader_of_needMore hmore (Ne.symm hchunks.1)]
  exact ih hchunks.2 (buffer ++ chunk) h

end

omit [StdAddr] in
/-- A header that was read is answered with a client and what is left of the buffer after it. -/
theorem exists_apply_of_consumed {header : ProxyHeader} {n : ℕ} (h : n ∈ header.consumed)
    (peer : SocketAddr) (buffer : Bytes) :
  ∃ client tls, header.apply peer buffer = some (client, tls, buffer.drop n)
  := by
  cases header <;> cases h <;> exact ⟨_, _, rfl⟩

/-- Parsing does not depend on how a connection is cut: a final verdict is not changed by what
follows, and the header it is on has arrived; every buffer longer than a header can be is decided;
and however a connection is cut into reads, the reader comes to the verdict on the whole of it, and
the bytes it replays and those it has left to read are what follows the header, which is what an
accepted connection goes on with. -/
theorem verdict_of_any_cut :
  (∀ b s, parse b ≠ .needMore →
    parse (b ++ s) = parse b ∧ ∀ n ∈ (parse b).consumed, n ≤ b.length)
  ∧ (∀ b : Bytes, max v1MaxLen (v2HeaderLen + v2MaxBody) < b.length → parse b ≠ .needMore)
  ∧ ∀ (chunks : List Bytes) (more : List ReadResult) (peer : SocketAddr), [] ∉ chunks →
    if parse chunks.flatten = .needMore then
      readProxyHeader [] (chunks.map .ok ++ more) = readProxyHeader chunks.flatten more
    else
      ∃ taken rest, chunks = taken ++ rest
        ∧ readProxyHeader [] (chunks.map .ok ++ more)
          = (.ok (parse chunks.flatten, taken.flatten), rest.map .ok ++ more)
        ∧ acceptProxied peer (chunks.map .ok ++ more)
          = ((parse chunks.flatten).apply peer taken.flatten, rest.map .ok ++ more)
        ∧ ∀ n ∈ (parse chunks.flatten).consumed, n ≤ taken.flatten.length
          ∧ taken.flatten.drop n ++ rest.flatten = chunks.flatten.drop n
          ∧ ∃ client tls replay, acceptProxied peer (chunks.map .ok ++ more)
              = (some (client, tls, replay), rest.map .ok ++ more)
            ∧ replay ++ rest.flatten = chunks.flatten.drop n
  := by
  refine ⟨?_, fun b => parse_ne_needMore_of_lt, ?_⟩
  · intro b s hfinal
    exact ⟨(stable_parse b).append hfinal s, (stable_parse b).consumed_le⟩
  intro chunks more peer hchunks
  split
  · rename_i hmore
    exact readProxyHeader_waits hchunks [] more hmore
  rename_i hfinal
  obtain ⟨taken, rest, rfl, hparse, hread⟩ := readProxyHeader_chunks hchunks [] more hfinal
  have haccept : acceptProxied peer ((taken ++ rest).map .ok ++ more)
      = ((parse (taken ++ rest).flatten).apply peer taken.flatten, rest.map .ok ++ more) := by
    rw [acceptProxied, hread]
    rfl
  refine ⟨taken, rest, rfl, hread, haccept, ?_⟩
  intro n hn
  have hle := (stable_parse taken.flatten).consumed_le n (hparse ▸ hn)
  obtain ⟨client, tls, hreplay⟩ := exists_apply_of_consumed hn peer taken.flatten
  rw [haccept, hreplay, flatten_append, drop_append_of_le_length hle]
  exact ⟨hle, rfl, client, tls, _, rfl, rfl⟩

end

/-- A header in two reads, with the beginning of what follows. -/
example :
  @acceptProxied ⟨fun _ => none⟩ ⟨.v4 0, 0⟩
    [.ok (v2Signature ++ [0x21]),
      .ok [0x11, 0, 12, 192, 0, 2, 10, 198, 51, 100, 7, 0xC8, 0x22, 0x13, 0xC5, 0x16, 0x03],
      .ok [0x01]]
    = (some (⟨.v4 0xC000020A, 0xC822⟩, none, [0x16, 0x03]), [.ok [0x01]])
  := by
  decide +kernel

end Siphon.ProxyProtocol
