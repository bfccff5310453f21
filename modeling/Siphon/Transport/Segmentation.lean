import Siphon.Sip.HeaderBlock
import Siphon.Transport.Stream

/-!
# Stream framing and the way a stream is cut

A stream is a list of messages with CRLF pairs before each.
-/

namespace Siphon

open List Slice

/-! ### Buffers with complete headers -/

variable {buffer : Bytes}

theorem leadingCrlfLen_eq_zero (h : ¬ crlf <+: buffer) :
  leadingCrlfLen buffer = 0
  := leadingCrlfLen_append (k := 0) h

variable {a r : Bytes}

theorem not_crlf_prefix_of_append (h : ¬ crlf <+: a ++ r) :
  ¬ crlf <+: a
  := fun ha => h (ha.trans (prefix_append a r))

variable {headerEnd : ℕ}

theorem extractSipMessageLength_append (r : Bytes) (hlead : ¬ crlf <+: buffer ++ r)
    (h : position [13, 10, 13, 10] buffer = some headerEnd) :
  extractSipMessageLength (buffer ++ r) = extractSipMessageLength buffer
  := by
  have hle : headerEnd ≤ buffer.length := (position_eq_some_iff.mp h).1
  rw [extractSipMessageLength, extractSipMessageLength, leadingCrlfLen_eq_zero hlead,
    leadingCrlfLen_eq_zero (not_crlf_prefix_of_append hlead)]
  rw [drop_zero, drop_zero, position_append_of_eq_some h, h, Option.map_some,
    Option.map_some, take_append_of_le_length hle]

theorem firstLine_eq {lineEnd : ℕ} (hlead : ¬ crlf <+: buffer)
    (h : position crlf buffer = some lineEnd) :
  firstLine buffer = buffer.take lineEnd
  := by
  rw [firstLine, leadingCrlfLen_eq_zero hlead]
  rw [drop_zero, drop_zero, h]
  simp

theorem headerBlockLen_eq (hlead : ¬ crlf <+: buffer)
    (h : position [13, 10, 13, 10] buffer = some headerEnd) :
  headerBlockLen buffer = headerEnd + 4
  := by
  rw [headerBlockLen, leadingCrlfLen_eq_zero hlead]
  rw [drop_zero, h]
  simp

theorem exists_position_crlf (h : position [13, 10, 13, 10] buffer = some headerEnd) :
  ∃ lineEnd, position crlf buffer = some lineEnd ∧ lineEnd ≤ headerEnd
  := by
  obtain ⟨hle, hpat, -⟩ := position_eq_some_iff.mp h
  have hcrlf : crlf <+: [13, 10, 13, 10] := by decide
  exact exists_position_le (hcrlf.trans hpat) hle

theorem drain_crlfPairs (k : ℕ) (hlead : ¬ crlf <+: buffer) :
  (drainLeadingCrlfKeepalives (crlfPairs k ++ buffer)).1 = buffer
  := by
  rw [drain_eq, leadingCrlfLen_append hlead, drop_left' (length_crlfPairs k)]

theorem exists_crlfPairs_of_append {j k : ℕ} {x y : Bytes} (hy : ¬ crlf <+: y)
    (h : crlfPairs j ++ x = crlfPairs k ++ y) :
  ∃ i, x = crlfPairs i ++ y
  := by
  induction j generalizing k with
  | zero => exact ⟨k, by simpa using h⟩
  | succ j ih =>
  cases k with
  | zero =>
    exfalso
    apply hy
    rw [crlfPairs_zero, nil_append] at h
    rw [← h, crlfPairs_succ]
    exact ⟨crlfPairs j ++ x, rfl⟩
  | succ k =>
    apply ih
    simpa using h

/-! ### Messages on a stream -/

section

variable [StdText]

/-- A message of a stream: it starts with a SIP start line, the parser accepts it, and it is
framed as a whole within the ceiling. -/
structure IsStreamMessage (maxMessageBytes : ℕ) (b : Bytes) : Prop where
  noLead : ¬ crlf <+: b
  startLine : isSipStartLine (firstLine b) = true
  accepted : ∃ m, parseSipMessageBytes b = .ok m
  framed : extractSipMessageLength b = some b.length
  within : b.length ≤ maxMessageBytes

/-- Whether the beginning of a message passes the test for buffers whose headers are not
complete: its header block is not too long and has no control octet near its start. -/
def passesIncomplete (b : Bytes) : Bool :=
  headerBlockLen b ≤ maxIncompleteHeaderBytes + 1
    && !((b.take (headerBlockLen b)).take 512).any isControlByte

variable {maxMessageBytes : ℕ} {b : Bytes}

section

variable (h : IsStreamMessage maxMessageBytes b)

include h

theorem IsStreamMessage.exists_headerEnd :
  ∃ headerEnd, position [13, 10, 13, 10] b = some headerEnd ∧ headerEnd + 4 ≤ b.length
  := by
  have hframed := h.framed
  rw [extractSipMessageLength, leadingCrlfLen_eq_zero h.noLead, Option.map_eq_some_iff] at hframed
  obtain ⟨headerEnd, hpos, -⟩ := hframed
  have hlen := (position_eq_some_iff.mp hpos).2.1.length_le
  exact ⟨headerEnd, hpos, by simp at hlen; omega⟩

theorem IsStreamMessage.ne_nil :
  b ≠ []
  := by
  obtain ⟨headerEnd, -, hlen⟩ := h.exists_headerEnd
  rintro rfl
  simp at hlen

theorem IsStreamMessage.noLead_append (r : Bytes) :
  ¬ crlf <+: b ++ r
  := by
  obtain ⟨headerEnd, -, hlen⟩ := h.exists_headerEnd
  intro hp
  apply h.noLead
  apply prefix_of_prefix_length_le hp (prefix_append b r)
  simp [crlf]
  omega

theorem IsStreamMessage.isSipStartLine_take (hb : b = a ++ r) {lineEnd : ℕ}
    (hpos : position crlf a = some lineEnd) :
  isSipStartLine (a.take lineEnd) = true
  := by
  have hle := (position_eq_some_iff.mp hpos).1
  have hfirst := h.startLine
  rw [firstLine_eq h.noLead (by rw [hb]; apply position_append_of_eq_some hpos), hb,
    take_append_of_le_length hle] at hfirst
  apply hfirst

theorem IsStreamMessage.frame_append (r : Bytes) :
  frameSipMessage (b ++ r) maxMessageBytes = .complete b.length
  := by
  obtain ⟨headerEnd, hpos, hlen⟩ := h.exists_headerEnd
  obtain ⟨lineEnd, hline, hle⟩ := exists_position_crlf hpos
  have hlineLe : lineEnd ≤ b.length := (position_eq_some_iff.mp hline).1
  have hfirst : firstLine (b ++ r) = b.take lineEnd := by
    rw [firstLine_eq (h.noLead_append r) (position_append_of_eq_some hline r),
      take_append_of_le_length hlineLe]
  have hstart := h.isSipStartLine_take (r := []) (by simp) hline
  have hwithin := h.within
  rw [frameSipMessage, extractSipMessageLength_append r (h.noLead_append r) hpos, h.framed]
  dsimp only
  rw [hfirst, hstart, if_neg (by simp), if_neg (by omega), if_pos (by simp)]

theorem IsStreamMessage.frame_take (hb : b = a ++ r) (hr : r ≠ [])
    (hpos : position [13, 10, 13, 10] b = some headerEnd) :
  frameSipMessage a maxMessageBytes
    = if headerEnd + 4 ≤ a.length then .needMore
      else if a.length ≤ maxIncompleteHeaderBytes ∧ (a.take 512).any isControlByte = false
      then .needMore else .garbage
  := by
  have hlead : ¬ crlf <+: a := not_crlf_prefix_of_append (hb ▸ h.noLead)
  have hposa := position_of_append (hb ▸ hpos)
  have hlonger : a.length < b.length := by
    rw [hb, length_append]
    have := length_pos_iff.mpr hr
    omega
  simp only [length_cons, length_nil, Nat.zero_add, Nat.reduceAdd] at hposa
  rw [frameSipMessage]
  by_cases hle : headerEnd + 4 ≤ a.length
  · rw [if_pos hle] at hposa
    obtain ⟨lineEnd, hline, -⟩ := exists_position_crlf hposa
    have hwithin := h.within
    rw [← extractSipMessageLength_append r (hb ▸ h.noLead) hposa, ← hb, h.framed]
    dsimp only
    rw [firstLine_eq hlead hline, h.isSipStartLine_take hb hline, if_neg (by simp),
      if_neg (by omega), if_neg (by omega), if_pos hle]
  · rw [if_neg hle] at hposa
    have hnone : extractSipMessageLength a = none := by
      rw [extractSipMessageLength, leadingCrlfLen_eq_zero hlead]
      simp [hposa]
    rw [hnone, if_neg hle]
    rw [classifyIncompleteStream]
    by_cases hlong : maxIncompleteHeaderBytes < a.length
    · rw [if_pos hlong, if_neg (by omega)]
    rw [if_neg hlong]
    by_cases hcontrol : (a.take 512).any isControlByte = true
    · rw [if_pos hcontrol, if_neg (by simp [hcontrol])]
    rw [if_neg hcontrol, if_pos ⟨by omega, by simpa using hcontrol⟩]
    cases hline : position crlf a with
    | none => rfl
    | some lineEnd =>
    dsimp only
    rw [h.isSipStartLine_take hb hline, if_pos rfl]

theorem IsStreamMessage.frame_needMore (hpass : passesIncomplete b = true) (hb : b = a ++ r)
    (hr : r ≠ []) :
  frameSipMessage a maxMessageBytes = .needMore
  := by
  obtain ⟨headerEnd, hpos, hlen⟩ := h.exists_headerEnd
  simp only [passesIncomplete, headerBlockLen_eq h.noLead hpos, Bool.and_eq_true,
    decide_eq_true_eq, Bool.not_eq_true'] at hpass
  rw [h.frame_take hb hr hpos]
  split
  · rfl
  rename_i hlt
  rw [if_pos]
  refine ⟨by omega, ?_⟩
  rw [any_eq_false] at hpass ⊢
  intro c hc
  apply hpass.2 c
  have htake : a = (b.take (headerEnd + 4)).take a.length := by
    rw [take_take, Nat.min_eq_left (by omega), hb, take_left]
  rw [htake, take_take, Nat.min_comm, ← take_take] at hc
  apply mem_of_mem_take hc

theorem IsStreamMessage.exists_frame_garbage (hpass : passesIncomplete b = false) :
  ∃ a r, b = a ++ r ∧ a ≠ [] ∧ r ≠ [] ∧ frameSipMessage a maxMessageBytes = .garbage
  := by
  obtain ⟨headerEnd, hpos, hlen⟩ := h.exists_headerEnd
  obtain ⟨rest, hsplit, -⟩ := take_append_of_position hpos
  -- All of the header block but its last octet, a line feed.
  have hcut : b = (b.take headerEnd ++ [13, 10, 13]) ++ 10 :: rest := by
    conv_lhs => rw [hsplit]
    simp
  have hlength : (b.take headerEnd ++ [13, 10, 13]).length = headerEnd + 3 := by
    simp only [length_append, length_take, length_cons, length_nil]
    omega
  have hblock : b.take (headerEnd + 4) = (b.take headerEnd ++ [13, 10, 13]) ++ [10] := by
    conv_lhs => rw [hcut]
    rw [take_append, take_of_length_le (by omega), hlength]
    simp
  refine ⟨b.take headerEnd ++ [13, 10, 13], 10 :: rest, hcut, by simp, by simp, ?_⟩
  rw [h.frame_take hcut (by simp) hpos, if_neg (by omega), if_neg]
  rintro ⟨hle, hcontrol⟩
  rw [passesIncomplete, headerBlockLen_eq h.noLead hpos, hblock, take_append, any_append,
    hcontrol] at hpass
  have hlast (n : ℕ) : (List.take n [(10 : UInt8)]).any isControlByte = false := by
    cases n <;> simp [isControlByte]
  rw [hlast] at hpass
  simp at hpass
  omega

end

/-! ### One pass of the loop -/

/-- What counts of a pass: what is left, what was handed on and whether the connection was
closed. -/
def Served.summary (s : Served) : Bytes × List Bytes × Option CloseReason :=
  (s.accumulator, deliveredBy s.events, s.closed)

theorem summary_frameBuffered (k : ℕ) (hlead : ¬ crlf <+: buffer) :
  (frameBuffered maxMessageBytes (crlfPairs k ++ buffer)).summary
    = if buffer = [] then ([], [], none)
      else match frameSipMessage buffer maxMessageBytes with
        | .complete len =>
          let next := (frameBuffered maxMessageBytes (buffer.drop len)).summary
          (next.1, buffer.take len :: next.2.1, next.2.2)
        | .needMore => (buffer, [], none)
        | .oversized _ _ => (buffer, [], some .oversized)
        | .garbage => (buffer, [], some .garbage)
  := by
  have hreject (headers : Bytes) : deliveredBy (rejectOversized headers) = [] := by
    rw [rejectOversized]
    split
    · split <;> rfl
    · rfl
  rw [frameBuffered]
  simp only [drain_crlfPairs k hlead]
  by_cases hnil : buffer = []
  · simp [hnil, Served.summary]
  rw [if_neg hnil, if_neg hnil]
  split <;> rename_i h <;> rw [drain_crlfPairs k hlead] at h <;> rw [h]
  · simp [Served.summary, Served.after]
  · simp [Served.summary]
  · simp [Served.summary, hreject]
  · simp [Served.summary]

/-! ### Streams -/

/-- The octets of some messages, with a number of CRLF pairs before each. -/
def streamOf (msgs : List (ℕ × Bytes)) : Bytes :=
  msgs.flatMap fun x => crlfPairs x.1 ++ x.2

variable {msgs : List (ℕ × Bytes)}

section

variable
  (hmsgs : ∀ b ∈ msgs.map Prod.snd, IsStreamMessage maxMessageBytes b ∧ passesIncomplete b = true)
include hmsgs

/-- A pass over the beginning of a stream hands on messages of the stream in order and leaves
the beginning of the rest. -/
theorem frameBuffered_streamOf {acc rem : Bytes} (h : acc ++ rem = streamOf msgs) :
  ∃ acc' done todo, (frameBuffered maxMessageBytes acc).summary = (acc', done, none)
    ∧ acc' ++ rem = streamOf todo ∧ msgs.map Prod.snd = done ++ todo.map Prod.snd
    ∧ (rem = [] → todo = [])
  := by
  induction hn : acc.length using Nat.strong_induction_on generalizing acc msgs with
  | _ n ih =>
  obtain ⟨j, buffer, rfl, hlead⟩ := exists_crlfPairs acc
  rw [summary_frameBuffered j hlead]
  cases msgs with
  | nil =>
    rw [streamOf, flatMap_nil, append_eq_nil_iff, append_eq_nil_iff] at h
    obtain ⟨⟨-, rfl⟩, rfl⟩ := h
    exact ⟨[], [], [], rfl, rfl, rfl, fun _ => rfl⟩
  | cons x msgs =>
    obtain ⟨k, b⟩ := x
    rw [map_cons, forall_mem_cons] at hmsgs
    obtain ⟨⟨hb, hpass⟩, hmsgs⟩ := hmsgs
    dsimp only at hb hpass
    have hstream : streamOf ((k, b) :: msgs) = crlfPairs k ++ (b ++ streamOf msgs) := by
      simp [streamOf]
    rw [hstream, append_assoc] at h
    obtain ⟨i, hi⟩ := exists_crlfPairs_of_append (hb.noLead_append (streamOf msgs)) h
    have htodo : buffer ++ rem = streamOf ((i, b) :: msgs) := by
      rw [hi]
      simp [streamOf]
    by_cases hnil : buffer = []
    · subst hnil
      refine ⟨[], [], (i, b) :: msgs, rfl, htodo, rfl, ?_⟩
      rintro rfl
      have hempty : crlfPairs i = [] ∧ b = [] ∧ streamOf msgs = [] := by simpa using hi.symm
      exact absurd hempty.2.1 hb.ne_nil
    rw [if_neg hnil]
    cases i with
    | succ i =>
      -- The buffer ends inside a line end.
      obtain rfl : buffer = [13] := by
        cases buffer with
        | nil => exact absurd rfl hnil
        | cons c buffer =>
        simp only [crlfPairs_succ, cons_append, List.cons.injEq] at hi
        obtain ⟨rfl, hi⟩ := hi
        cases buffer with
        | nil => rfl
        | cons d buffer =>
        rw [cons_append, List.cons.injEq] at hi
        obtain ⟨rfl, -⟩ := hi
        exact absurd ⟨buffer, rfl⟩ hlead
      refine ⟨[13], [], (i + 1, b) :: msgs, rfl, htodo, rfl, ?_⟩
      rintro rfl
      simp at hi
    | zero =>
      rw [crlfPairs_zero, nil_append] at hi
      have hcut : (∃ t, buffer = b ++ t ∧ t ++ rem = streamOf msgs)
          ∨ ∃ r, b = buffer ++ r ∧ r ≠ [] ∧ rem = r ++ streamOf msgs := by
        rcases append_eq_append_iff.mp hi with ⟨r, hbuf, hrem⟩ | ⟨t, hbuf, ht⟩
        · by_cases hr : r = []
          · exact .inl ⟨[], by simp [hbuf, hr], by simp [hrem, hr]⟩
          · exact .inr ⟨r, hbuf, hr, hrem⟩
        · exact .inl ⟨t, hbuf, ht.symm⟩
      rcases hcut with ⟨t, rfl, ht⟩ | ⟨r, hbuf, hr, hrem⟩
      · have hshort : t.length < n := by
          have hpos := length_pos_iff.mpr hb.ne_nil
          rw [← hn, length_append, length_append]
          omega
        obtain ⟨acc', done, todo, hpass', hacc', hdone, hrem⟩ := ih t.length hshort hmsgs ht rfl
        rw [hb.frame_append t]
        dsimp only
        rw [drop_left, take_left, hpass']
        exact ⟨acc', b :: done, todo, rfl, hacc', by simp [hdone], hrem⟩
      · rw [hb.frame_needMore hpass hbuf hr]
        refine ⟨buffer, [], (0, b) :: msgs, rfl, htodo, rfl, ?_⟩
        rintro rfl
        exact absurd (append_eq_nil_iff.mp hrem.symm).1 hr

theorem serve_streamOf {acc : Bytes} {reads : List Bytes}
    (h : acc ++ reads.flatten = streamOf msgs) :
  (serve maxMessageBytes acc reads).summary = ([], msgs.map Prod.snd, none)
  := by
  induction reads generalizing acc msgs with
  | nil =>
    rw [flatten_nil] at h
    obtain ⟨acc', done, todo, hpass, hacc', hdone, htodo⟩ := frameBuffered_streamOf hmsgs h
    cases htodo rfl
    rw [append_nil] at hacc'
    rw [map_nil, append_nil] at hdone
    rw [serve, hpass, hdone, hacc']
    rfl
  | cons chunk reads ih =>
    rw [flatten_cons] at h
    obtain ⟨acc', done, todo, hpass, hacc', hdone, -⟩ := frameBuffered_streamOf hmsgs h
    simp only [Served.summary, Prod.mk.injEq] at hpass
    obtain ⟨haccumulator, hdelivered, hclosed⟩ := hpass
    rw [← append_assoc] at hacc'
    have hnext := ih (fun b hb => hmsgs b (by rw [hdone]; exact mem_append_right _ hb)) hacc'
    rw [serve]
    simp only [hclosed, haccumulator, Option.isSome_none, Bool.false_eq_true, if_false]
    simp only [Served.summary, Prod.mk.injEq] at hnext ⊢
    simp only [Served.after, deliveredBy_append, hnext, hdelivered, hdone, and_self]

end

theorem frameBuffered_streamOf_append
    (hmsgs : ∀ b ∈ msgs.map Prod.snd, IsStreamMessage maxMessageBytes b) (rest : Bytes) :
  (frameBuffered maxMessageBytes (streamOf msgs ++ rest)).closed
    = (frameBuffered maxMessageBytes rest).closed
  := by
  induction msgs with
  | nil => rfl
  | cons x msgs ih =>
  obtain ⟨k, b⟩ := x
  rw [map_cons, forall_mem_cons] at hmsgs
  obtain ⟨hb, hmsgs⟩ := hmsgs
  have hstream : streamOf ((k, b) :: msgs) ++ rest
      = crlfPairs k ++ (b ++ (streamOf msgs ++ rest)) := by
    simp [streamOf]
  have hsummary := @summary_frameBuffered _ _ maxMessageBytes k
    (hb.noLead_append (streamOf msgs ++ rest))
  rw [hb.frame_append, if_neg (by simp [hb.ne_nil])] at hsummary
  dsimp only at hsummary
  rw [drop_left] at hsummary
  rw [hstream, ← ih hmsgs]
  exact congrArg (fun s => s.2.2) hsummary

/-- A stream is handed on message by message, and the connection is kept, however the stream
is cut into what was read ahead and reads, exactly if the beginning of each message passes the
test for buffers whose headers are not complete. -/
theorem serve_delivers_iff {msgs : List (ℕ × Bytes)}
    (hmsgs : ∀ b ∈ msgs.map Prod.snd, IsStreamMessage maxMessageBytes b) :
  (∀ seed reads, seed ++ reads.flatten = streamOf msgs →
      deliveredBy (serve maxMessageBytes seed reads).events = msgs.map Prod.snd
        ∧ (serve maxMessageBytes seed reads).closed = none)
    ↔ ∀ b ∈ msgs.map Prod.snd, passesIncomplete b = true
  := by
  constructor
  · intro hserve b hb
    by_contra hpass
    obtain ⟨⟨k, b⟩, hx, rfl⟩ := mem_map.mp hb
    obtain ⟨before, later, rfl⟩ := append_of_mem hx
    have hmsg := hmsgs b hb
    obtain ⟨a, r, hcut, hne, -, hgarbage⟩ := hmsg.exists_frame_garbage (by simpa using hpass)
    -- The stream is cut in the header block of the first such message.
    have hsummary := @summary_frameBuffered a _ maxMessageBytes k
      (not_crlf_prefix_of_append (hcut ▸ hmsg.noLead))
    rw [if_neg hne, hgarbage] at hsummary
    have hclosed : (frameBuffered maxMessageBytes (streamOf before ++ (crlfPairs k ++ a))).closed
        = some .garbage := by
      rw [frameBuffered_streamOf_append fun c hc => hmsgs c (by simp_all)]
      exact congrArg (fun s => s.2.2) hsummary
    obtain ⟨-, hopen⟩ := hserve (streamOf before ++ (crlfPairs k ++ a)) [r ++ streamOf later]
      (by simp [streamOf, hcut])
    rw [serve, hclosed] at hopen
    simp [hclosed] at hopen
  · intro hpass seed reads h
    have hsummary := serve_streamOf (fun b hb => ⟨hmsgs b hb, hpass b hb⟩) h
    simp only [Served.summary, Prod.mk.injEq] at hsummary
    exact hsummary.2

end

def bodyRequest : Bytes :=
  Utf8.encode "OPTIONS sip:a SIP/2.0\r\nl: 2\r\n\r\nhi".toList

/-- A request with a form feed in a header field. -/
def formFeedRequest : Bytes :=
  Utf8.encode "OPTIONS sip:a SIP/2.0\r\nX: \x0c.\r\n\r\n".toList

theorem isStreamMessage_bodyRequest :
  @IsStreamMessage StdText.ascii 65536 bodyRequest
  := @IsStreamMessage.mk StdText.ascii _ _ (by decide +kernel) (by decide +kernel)
    ⟨⟨.request ⟨.options, ⟨.sip, none, ['a'], none, [], none⟩, .sip20⟩,
      SipHeaders.new.add ['l'] ['2'], Utf8.encode "hi".toList⟩, by decide +kernel⟩
    (by decide +kernel) (by decide +kernel)

theorem isStreamMessage_formFeedRequest :
  @IsStreamMessage StdText.ascii 65536 formFeedRequest
  := @IsStreamMessage.mk StdText.ascii _ _ (by decide +kernel) (by decide +kernel)
    ⟨⟨.request ⟨.options, ⟨.sip, none, ['a'], none, [], none⟩, .sip20⟩,
      SipHeaders.new.add ['X'] ['.'], []⟩, by decide +kernel⟩
    (by decide +kernel) (by decide +kernel)

theorem serve_delivers_bodyRequest :
  @IsStreamMessage StdText.ascii 65536 bodyRequest
    ∧ ∀ seed reads, seed ++ reads.flatten = streamOf [(0, bodyRequest), (2, bodyRequest)] →
      deliveredBy (@serve StdText.ascii 65536 seed reads).events = [bodyRequest, bodyRequest]
        ∧ (@serve StdText.ascii 65536 seed reads).closed = none
  := by
  have hmsgs : ∀ b ∈ [(0, bodyRequest), (2, bodyRequest)].map Prod.snd,
      @IsStreamMessage StdText.ascii 65536 b := by
    simpa using isStreamMessage_bodyRequest
  use isStreamMessage_bodyRequest
  exact (@serve_delivers_iff StdText.ascii 65536 _ hmsgs).mpr (by decide +kernel)

/-- A message with a control octet in its headers is handed on if it comes in one read, and
closes the connection if it comes in two. -/
theorem formFeedRequest_closes :
  @IsStreamMessage StdText.ascii 65536 formFeedRequest
    ∧ @serve StdText.ascii 65536 [] [formFeedRequest] = ⟨[], [.deliver formFeedRequest], none⟩
    ∧ [] ++ [formFeedRequest.take 28, formFeedRequest.drop 28].flatten
      = streamOf [(0, formFeedRequest)]
    ∧ @serve StdText.ascii 65536 [] [formFeedRequest.take 28, formFeedRequest.drop 28]
      = ⟨formFeedRequest.take 28, [.recordMalformed], some .garbage⟩
  := ⟨isStreamMessage_formFeedRequest, by decide +kernel, by decide +kernel, by decide +kernel⟩

end Siphon
