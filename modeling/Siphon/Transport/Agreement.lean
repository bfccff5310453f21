import Siphon.Library.Words
import Siphon.Sip.HeaderBlock
import Siphon.Transport.Framing

/-!
# Framer and parser agree

The framer finds the end of a message with a line scan of its own, and where the parser finds it.
-/

namespace Siphon

open List Utf8 Slice Text

open Lines (unlines)

/-! ### Names -/

theorem agree_isWsp :
  Utf8.Agree isWspByte isWsp
  := by
  apply Utf8.Agree.of_table (by decide +kernel) (by decide +kernel)
  intro c hc
  by_contra h
  simp only [isWsp, Bool.not_eq_false, Bool.or_eq_true, beq_iff_eq] at h
  rcases h with rfl | rfl <;> simp at hc

theorem agree_isAsciiWhitespace :
  Utf8.Agree isAsciiWhitespaceByte isAsciiWhitespace
  := by
  apply Utf8.Agree.of_table (by decide +kernel) (by decide +kernel)
  intro c hc
  by_contra h
  simp only [isAsciiWhitespace, Bool.not_eq_false, Bool.or_eq_true, beq_iff_eq] at h
  rcases h with (((rfl | rfl) | rfl) | rfl) | rfl <;> simp at hc

theorem map_toAsciiLowercaseByte (t : Text) :
  (encode t).map toAsciiLowercaseByte = encode (toAsciiLowercase t)
  := by
  apply map_encode
  · intro c hc
    have h : ∀ n < 128, (Char.ofNat n).toLower.toNat < 128
        ∧ toAsciiLowercaseByte (UInt8.ofNat n) = UInt8.ofNat (Char.ofNat n).toLower.toNat := by
      decide +kernel
    have hn := h c.toNat hc
    rwa [Char.ofNat_toNat] at hn
  · intro b hb
    have h : ∀ n < 256, 128 ≤ n → toAsciiLowercaseByte (UInt8.ofNat n) = UInt8.ofNat n := by
      decide +kernel
    have hn := h b.toNat b.toNat_lt hb
    rwa [UInt8.ofNat_toNat] at hn
  · intro c hc
    apply toLower_of_le hc

theorem trimAscii_toAsciiLowercase (t : Text) :
  trimAscii (toAsciiLowercase t) = toAsciiLowercase (trimAscii t)
  := by
  have hp : isAsciiWhitespace ∘ Char.toLower = isAsciiWhitespace := by
    funext c
    by_cases hc : c.toNat < 128
    · have h : ∀ n < 128, isAsciiWhitespace (Char.ofNat n).toLower
          = isAsciiWhitespace (Char.ofNat n) := by decide +kernel
      have hn := h c.toNat hc
      rwa [Char.ofNat_toNat] at hn
    · rw [Function.comp_apply, toLower_of_le (by omega)]
  rw [trimAscii, toAsciiLowercase, trimMatches_map, hp]
  rfl

theorem canonicalKey_eq_contentLength (name : Text) :
  canonicalKey name = canonicalKey "Content-Length".toList
    ↔ toAsciiLowercase name = "content-length".toList
      ∨ toAsciiLowercase name = "l".toList
  := by
  have hkey : canonicalKey "Content-Length".toList = "content-length".toList := by decide
  rw [hkey]
  match name with
  | [] => decide
  | [c] =>
    have hc : canonicalKey [c] = (compactForm c.toLower).getD [c.toLower] := rfl
    have hl : toAsciiLowercase [c] = [c.toLower] := rfl
    rw [hc, hl]
    generalize c.toLower = d
    fun_cases compactForm d <;> simp_all
  | c :: d :: cs =>
    have hc : canonicalKey (c :: d :: cs) = toAsciiLowercase (c :: d :: cs) := rfl
    rw [hc]
    simp [toAsciiLowercase]

theorem isContentLengthName_encode (name : Text) :
  isContentLengthName (encode name)
    = decide (canonicalKey (trimAscii name) = canonicalKey "Content-Length".toList)
  := by
  rw [isContentLengthName, map_toAsciiLowercaseByte,
    trimMatches_encode agree_isAsciiWhitespace, Bool.eq_iff_iff]
  simp only [Bool.or_eq_true, beq_iff_eq, encode_injective.eq_iff, decide_eq_true_eq,
    canonicalKey_eq_contentLength, ← trimAscii_toAsciiLowercase]
  rfl

/-! ### Lines -/

theorem stripCr_append (l : Bytes) :
  stripCr (l ++ [13]) = l
  := by
  have h : (l ++ [13]).dropSuffix? [13] = some l := by
    rw [List.dropSuffix?_eq_some_iff]
    exact ⟨[13], rfl, by simp⟩
  rw [stripCr, h, Option.getD_some]

theorem stripCr_of_not_mem {l : Bytes} (hl : 13 ∉ l) :
  stripCr l = l
  := by
  rw [stripCr]
  cases h : l.dropSuffix? [13] with
  | none => rfl
  | some k =>
  exfalso
  obtain ⟨s, rfl, hs⟩ := List.dropSuffix?_eq_some_iff.mp h
  apply hl
  simp [beq_iff_eq.mp hs]

theorem headerLines_unlines {ls : List Bytes} {last : Bytes}
    (hls : ∀ l ∈ ls ++ [last], l ≠ [] ∧ Clean l) :
  headerLines (unlines crlf ls ++ last) = ls ++ [last]
  := by
  induction ls with
  | nil =>
    obtain ⟨hne, hclean⟩ := hls last (by simp)
    simp [headerLines, splitOn_eq_singleton hclean.2, stripCr_of_not_mem hclean.1, hne]
  | cons l ls ih =>
    obtain ⟨hne, hclean⟩ := hls l (by simp)
    have htail := ih fun k hk => hls k (by simp [hk])
    have hlf : 10 ∉ l ++ [13] := by simp [hclean.2]
    have hsplit : (unlines crlf (l :: ls) ++ last).splitOn 10
        = (l ++ [13]) :: (unlines crlf ls ++ last).splitOn 10 := by
      have h := splitOn_append_cons_self_of_not_mem hlf (unlines crlf ls ++ last)
      simpa [crlf] using h
    rw [headerLines, hsplit, map_cons, filter_cons, stripCr_append, if_pos (by simp [hne]),
      cons_append, ← htail]
    rfl

variable {lines : List Text}

theorem HeadLines.extractSipMessageLength_eq {b : Bytes} {k : ℕ} {start : Text} {rest : Bytes}
    (h : HeadLines b k start lines rest) :
  extractSipMessageLength b
    = some (min (2 * k + ((encode (unlines crlfText (start :: lines))).length - 2) + 4
      + (scanContentLength (lines.map encode)).getD 0) (2 ^ 64 - 1))
  := by
  have hpos := h.findHeaderBoundary_eq
  have hlines := h.clean
  have hlen := two_le_length start lines
  rw [extractSipMessageLength, h.leadingCrlfLen_eq, h.drop_eq]
  rw [findHeaderBoundary] at hpos
  rw [hpos, Option.map_some]
  rw [encode_unlines] at hlen ⊢
  have hsplit := (dropLast_append_getLast (l := (start :: lines).map encode) (by simp))
  generalize hls : ((start :: lines).map encode).dropLast = ls at hsplit
  generalize ((start :: lines).map encode).getLast _ = last at hsplit
  have htake : (unlines crlf ((start :: lines).map encode) ++ crlf ++ rest).take
      ((unlines crlf ((start :: lines).map encode)).length - 2) = unlines crlf ls ++ last := by
    have he : unlines crlf (ls ++ [last]) = unlines crlf ls ++ last ++ crlf := by simp
    rw [← hsplit, he]
    generalize unlines crlf ls ++ last = block
    have hblock : (block ++ crlf).length - 2 = block.length := by simp [crlf]
    rw [hblock, append_assoc, append_assoc]
    apply take_left
  rw [htake, extractContentLength, headerLines_unlines, hsplit, map_cons]
  rwa [hsplit]

/-! ### The value -/

/-- The text the framer reads a field from: its lines joined with spaces, as they are. -/
def rawText (text : Text) (folds : List Text) : Text :=
  text ++ folds.flatMap fun l => ' ' :: l

variable {folds : List Text}

theorem foldContinuations_encode {text : Text} (hfolds : ∀ l ∈ folds, isFold l = true)
    (hlines : ∀ l ∈ lines.head?, isFold l = false) :
  foldContinuations (encode text) ((folds ++ lines).map encode)
    = encode (rawText text folds)
  := by
  induction folds generalizing text with
  | nil =>
    cases lines with
    | nil => simp [foldContinuations, rawText]
    | cons l lines =>
    have hl : l.head?.any isWsp = false := hlines l rfl
    simp [foldContinuations, head?_encode_any agree_isWsp, hl, rawText]
  | cons l folds ih =>
    have hl : l.head?.any isWsp = true := hfolds l mem_cons_self
    have htail := @ih (text ++ ' ' :: l) fun k hk => hfolds k (mem_cons_of_mem _ hk)
    rw [cons_append, map_cons, foldContinuations, head?_encode_any agree_isWsp, if_pos hl]
    have hspace : encode text ++ 32 :: encode l = encode (text ++ ' ' :: l) := by
      simp [encodeChar_of_lt]
    rw [hspace, htail]
    simp [rawText]

theorem parse_trim_rawText {text : Text} {n : ℕ}
    (h : Decimal.parse (2 ^ 64) (trim (trim (foldText text folds))) = some n) :
  Decimal.parse (2 ^ 64) (trim (rawText text folds)) = some n
  := by
  have hwsp : ∀ c, isWsp c = true → isWhitespace c = true := by
    intro c hc
    simp only [isWsp, Bool.or_eq_true, beq_iff_eq] at hc
    rcases hc with rfl | rfl <;> rfl
  have hwords : words isWhitespace (foldText text folds)
      = words isWhitespace (rawText text folds) := by
    rw [foldText, rawText, words_append_flatMap rfl, words_append_flatMap rfl,
      words_dropWhile hwsp]
    simp only [words_dropWhile hwsp]
  rw [trim, trim, trimMatches_trimMatches] at h
  obtain ⟨hne, hchars, -⟩ := Decimal.parse_eq_some h
  have htrim : trim (rawText text folds)
      = trimMatches isWhitespace (foldText text folds) :=
    trimMatches_congr hwords rfl hne fun c hc => Decimal.isWhitespace_of_digit (hchars c hc)
  rw [htrim, h]

/-! ### The fields -/

theorem scanContentLength_folds (lines : List Text) (hfolds : ∀ l ∈ folds, isFold l = true) :
  scanContentLength ((folds ++ lines).map encode)
    = scanContentLength (lines.map encode)
  := by
  induction folds with
  | nil => rfl
  | cons l folds ih =>
  have hl : l.head?.any isWsp = true := hfolds l mem_cons_self
  rw [cons_append, map_cons, scanContentLength, head?_encode_any agree_isWsp,
    if_pos hl, ih fun k hk => hfolds k (mem_cons_of_mem _ hk)]

theorem scanContentLength_cons {token ws text : Text} (hne : token ≠ [])
    (htoken : ∀ c ∈ token, isNameChar c = true) (hws : ∀ c ∈ ws, isWsp c = true)
    (hfolds : ∀ l ∈ folds, isFold l = true) (hlines : ∀ l ∈ lines.head?, isFold l = false) :
  scanContentLength (((token ++ ws ++ ':' :: text) :: (folds ++ lines)).map encode)
    = if canonicalKey (trimAscii token) = canonicalKey "Content-Length".toList then
        Decimal.parse (2 ^ 64) (trim (rawText text folds))
      else scanContentLength (lines.map encode)
  := by
  have hhead : ¬ (token ++ ws ++ ':' :: text).head?.any isWsp = true := by
    obtain ⟨c, t, rfl⟩ := exists_cons_of_ne_nil hne
    simp [isWsp_of_isNameChar (htoken c mem_cons_self)]
  have hcolon : ':' ∉ token ++ ws := by
    intro hmem
    rcases mem_append.mp hmem with hmem | hmem
    · simpa [isNameChar] using htoken _ hmem
    · simpa [isWsp] using hws _ hmem
  have hsplit : splitOnce 58 (encode (token ++ ws ++ ':' :: text))
      = some (encode (token ++ ws), encode text) := by
    have hbyte : (58 : UInt8) ∉ encode (token ++ ws) := by
      intro hmem
      apply hcolon ((mem_encode_iff (c := ':') (by decide)).mp hmem)
    have h := splitOnce_append hbyte (encode text)
    simpa [encodeChar_of_lt] using h
  have hname : trimAscii (token ++ ws) = trimAscii token := by
    apply trimMatches_append_right
    intro c hc
    have hw := hws c hc
    simp only [isWsp, Bool.or_eq_true, beq_iff_eq] at hw
    rcases hw with rfl | rfl <;> rfl
  rw [map_cons, scanContentLength, head?_encode_any agree_isWsp, if_neg hhead, hsplit]
  dsimp only
  rw [isContentLengthName_encode, hname, foldContinuations_encode hfolds hlines,
    decode_eq_some_iff.mpr rfl, scanContentLength_folds lines hfolds, Option.bind_some]
  simp only [decide_eq_true_eq]

theorem scanContentLength_fields {fields : List (Text × Text)} (h : Fields lines fields) :
  (valuesOf fields "Content-Length".toList = [] →
      scanContentLength (lines.map encode) = none)
    ∧ ∀ v n, (valuesOf fields "Content-Length".toList).head? = some v →
      Decimal.parse (2 ^ 64) (trim v) = some n →
      scanContentLength (lines.map encode) = some n
  := by
  induction h with
  | nil => simp [scanContentLength, valuesOf]
  | @cons token ws text folds lines fields hne htoken hws hfolds rest ih =>
  rw [scanContentLength_cons hne htoken hws hfolds rest.head?_isFold, valuesOf, filter_cons]
  by_cases hk : canonicalKey (trimAscii token) = canonicalKey "Content-Length".toList
  · rw [if_pos hk, if_pos (decide_eq_true hk), map_cons]
    refine ⟨by simp, ?_⟩
    rintro v n ⟨⟩ hn
    apply parse_trim_rawText hn
  · rw [if_neg hk, if_neg fun h => hk (of_decide_eq_true h)]
    apply ih

/-! ### Agreement -/

section

variable [StdText]

/-- Framer and parser agree on where a message ends: the framed length of an accepted message
is that of the leading CRLF pairs, the header block with its empty line, and the body. -/
theorem extractSipMessageLength_of_parse {b : Bytes} {m : SipMessage} (hb : b.length < 2 ^ 64)
    (h : parseSipMessageBytes b = .ok m) :
  ∃ headerEnd, findHeaderBoundary (b.drop (leadingCrlfLen b)) = some headerEnd
    ∧ extractSipMessageLength b = some (leadingCrlfLen b + (headerEnd + 4) + m.body.length)
  := by
  obtain ⟨n, -, hblock, -⟩ := parseSipMessageBytes_eq_ok.mp h
  obtain ⟨k, start, lines, rest, hl⟩ := exists_headLines hblock
  obtain ⟨-, ⟨fields, hf, hh⟩, len, hlen, hle, hbody⟩ := hl.parseSipMessageBytes_eq_ok.mp h
  obtain ⟨hnone, hsome⟩ := scanContentLength_fields hf
  have hscan : (scanContentLength (lines.map encode)).getD 0 = len := by
    rw [BodyLength, hh, get_addFields_new] at hlen
    rcases hlen with ⟨hv, hzero⟩ | ⟨v, hv, hn⟩
    · rw [hnone (List.head?_eq_none_iff.mp hv), hzero, Option.getD_none]
    · rw [hsome v _ hv hn, Option.getD_some]
  have hlength : m.body.length = len := by
    rw [hbody, length_take, Nat.min_eq_left hle]
  have htwo := HeadLines.two_le_length start lines
  have hbound : 2 * k + (encode (unlines crlfText (start :: lines))).length + 2 + len
      < 2 ^ 64 := by
    rw [hl.eq] at hb
    simp only [length_append, length_crlfPairs, crlf, length_cons, length_nil] at hb
    omega
  refine ⟨(encode (unlines crlfText (start :: lines))).length - 2, ?_, ?_⟩
  · rw [hl.leadingCrlfLen_eq, hl.drop_eq, hl.findHeaderBoundary_eq]
  · rw [hl.extractSipMessageLength_eq, hscan, hl.leadingCrlfLen_eq, hlength,
      Nat.min_eq_left (by omega), Nat.add_assoc (2 * k)]

end

/-- A message after a CRLF pair, with a folded compact `Content-Length` and the first octet of
the next message behind it. -/
def foldedMessage : Bytes :=
  encode "\r\nOPTIONS sip:a SIP/2.0\r\nl :\r\n\t 2\r\n\r\nhiX".toList

theorem extractSipMessageLength_of_parse_foldedMessage :
  (∃ m, @parseSipMessageBytes StdText.ascii foldedMessage = .ok m ∧ m.body.length = 2)
    ∧ extractSipMessageLength foldedMessage = some (2 + (31 + 4) + 2)
  := by
  have hparse : @parseSipMessageBytes StdText.ascii foldedMessage
      = .ok ⟨.request ⟨.options, ⟨.sip, none, ['a'], none, [], none⟩, .sip20⟩,
        SipHeaders.new.add ['l'] ['2'], [104, 105]⟩ := by decide +kernel
  have hb : foldedMessage.length < 2 ^ 64 := by decide +kernel
  obtain ⟨headerEnd, hend, hlen⟩ := @extractSipMessageLength_of_parse StdText.ascii _ _ hb hparse
  cases hend
  exact ⟨⟨_, hparse, rfl⟩, hlen⟩

end Siphon
