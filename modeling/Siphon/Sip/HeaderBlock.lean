import Siphon.Library.Lines
import Siphon.Sip.Parser

/-!
# The lines of a header block

A header block is a list of non-empty lines without stray line ends, followed by an empty line.
-/

namespace Siphon

open List Lines
open SipHeaders (new getAll)
open Utf8

open Lines (unlines)

/-! ### Lines -/

/-- A line of a header block: not empty, and without CR or LF. -/
structure IsLine (l : Text) : Prop where
  ne_nil : l ≠ []
  cr : '\r' ∉ l
  lf : '\n' ∉ l

/-- Whether a line continues the one before it. -/
def isFold (l : Text) : Bool :=
  l.head?.any isWsp

/-- The text of a field: that of its first line and of its continuation lines, each without
the white space in front, with a space between them. -/
def foldText (text : Text) (folds : List Text) : Text :=
  text.dropWhile isWsp ++ folds.flatMap fun l => ' ' :: l.dropWhile isWsp

inductive Fields : List Text → List (Text × Text) → Prop where
  | nil : Fields [] []
  | cons {token ws text : Text} {folds lines : List Text} {fields : List (Text × Text)}
      (hne : token ≠ []) (htoken : ∀ c ∈ token, isNameChar c = true)
      (hws : ∀ c ∈ ws, isWsp c = true) (hfolds : ∀ l ∈ folds, isFold l = true)
      (rest : Fields lines fields) :
      Fields ((token ++ ws ++ ':' :: text) :: (folds ++ lines))
        ((Text.trimAscii token, Text.trim (foldText text folds)) :: fields)

def addFields (h : SipHeaders) (fields : List (Text × Text)) : SipHeaders :=
  fields.foldl (fun h f => h.add f.1 f.2) h

theorem isWsp_of_isNameChar {c : Char} (h : isNameChar c = true) :
  isWsp c = false
  := by
  by_contra hc
  simp only [isWsp, Bool.not_eq_false, Bool.or_eq_true, beq_iff_eq] at hc
  rcases hc with rfl | rfl <;> simp [isNameChar] at h

variable {lines : List Text} {fields : List (Text × Text)}

theorem Fields.head?_isFold (h : Fields lines fields) :
  ∀ l ∈ lines.head?, isFold l = false
  := by
  intro l hl
  cases h with
  | nil => cases hl
  | @cons token ws text folds lines fields hne htoken hws hfolds rest =>
  cases hl
  cases token with
  | nil => exact absurd rfl hne
  | cons c token => simp [isFold, isWsp_of_isNameChar (htoken c mem_cons_self)]

/-! ### The headers of some fields -/

def valuesOf (fields : List (Text × Text)) (name : Text) : List Text :=
  (fields.filter fun f => canonicalKey f.1 = canonicalKey name).map Prod.snd

theorem getAll_add (h : SipHeaders) (name value j : Text) :
  (h.add name value).getAll j
    = if canonicalKey j = canonicalKey name then some ((h.getAll j).getD [] ++ [value])
      else h.getAll j
  := by
  rw [getAll, SipHeaders.add, SipHeaders.upsert]
  rw [IndexMap.get?_upsert]
  split
  · rename_i hj
    rw [getAll, hj]
    cases h.headers.get? (canonicalKey name) <;> simp
  · rw [getAll]

theorem getAll_addFields (h : SipHeaders) (fields : List (Text × Text)) (j : Text) :
  (addFields h fields).getAll j
    = if valuesOf fields j = [] then h.getAll j
      else some ((h.getAll j).getD [] ++ valuesOf fields j)
  := by
  induction fields generalizing h with
  | nil => simp [addFields, valuesOf]
  | cons f fields ih =>
  have hstep : addFields h (f :: fields) = addFields (h.add f.1 f.2) fields := rfl
  have hvalues : valuesOf (f :: fields) j
      = if canonicalKey j = canonicalKey f.1 then f.2 :: valuesOf fields j
        else valuesOf fields j := by
    by_cases hk : canonicalKey f.1 = canonicalKey j
    · simp [hk, valuesOf]
    · simp [hk, valuesOf, Ne.symm hk]
  rw [hstep, ih, getAll_add, hvalues]
  by_cases hk : canonicalKey j = canonicalKey f.1
  · by_cases hv : valuesOf fields j = [] <;> simp [hk, hv]
  · simp [hk]

theorem get_addFields_new (fields : List (Text × Text)) (j : Text) :
  (addFields new fields).get j = (valuesOf fields j).head?
  := by
  rw [SipHeaders.get, getAll_addFields]
  have hnew : new.getAll j = none := rfl
  by_cases hv : valuesOf fields j = [] <;> simp [hv, hnew]

theorem addFields_concat (h : SipHeaders) (fields : List (Text × Text)) (f : Text × Text) :
  addFields h (fields ++ [f]) = (addFields h fields).add f.1 f.2
  := foldl_append

theorem mem_entries_addFields {e : SipHeaders.Entry}
    (h : e ∈ (addFields new fields).headers.entries) :
  e.2.1 ∈ fields.map Prod.fst ∧ e.2.2 ≠ [] ∧ ∀ v ∈ e.2.2, v ∈ fields.map Prod.snd
  := by
  induction fields using List.reverseRecOn generalizing e with
  | nil => cases h
  | append_singleton fields f ih =>
  rw [addFields_concat] at h
  simp only [map_append, mem_append]
  rcases IndexMap.mem_upsertList h with rfl | ⟨u, hu, rfl⟩ | h
  · simp
  · obtain ⟨hname, -, hvalues⟩ := ih hu
    refine ⟨.inl hname, by simp, ?_⟩
    intro v hv
    rcases mem_append.mp hv with hv | hv
    · apply Or.inl (hvalues v hv)
    · simp [mem_singleton.mp hv]
  · obtain ⟨hname, hne, hvalues⟩ := ih h
    exact ⟨.inl hname, hne, fun v hv => .inl (hvalues v hv)⟩

/-! ### Values -/

theorem parseCrlf_crlfText (tail : Text) :
  parseCrlf (crlfText ++ tail) = .ok (tail, crlfText)
  := by
  rw [parseCrlf, Nom.alt_eq_ok, Nom.tag_eq_ok]
  apply Or.inl ⟨rfl, rfl⟩

theorem parseValueLine_append {value line rest : Text} (hline : '\r' ∉ line) :
  parseValueLine value (line ++ crlfText ++ rest)
    = .ok (if isFold rest ∧ rest.dropWhile isWsp ≠ []
      then (rest.dropWhile isWsp, value ++ line ++ [' '], true)
      else (rest, value ++ line, false))
  := by
  have hu : Nom.takeUntil crlfText (line ++ crlfText ++ rest)
      = .ok (crlfText ++ rest, line) := by
    rw [Nom.takeUntil_eq_ok, append_assoc]
    apply And.intro rfl
    rw [← append_assoc]
    apply Slice.position_append hline
  simp only [parseValueLine, hu, parseCrlf_crlfText, bind, Except.bind, pure, Except.pure]
  by_cases hnil : rest = []
  · simp [hnil, isFold]
  by_cases hdrop : rest.dropWhile isWsp = []
  · simp [hnil, hdrop]
  by_cases hfold : isFold rest
  · have hw : Nom.takeWhile1 isWsp rest
        = .ok (rest.dropWhile isWsp, rest.takeWhile isWsp) := by
      rw [Nom.takeWhile1, Nom.run1, if_neg]
      cases rest with
      | nil => exact absurd rfl hnil
      | cons c rest =>
      have hc : isWsp c = true := by simpa [isFold] using hfold
      simp [hc]
    have hany : rest.head?.any isWsp = true := hfold
    simp [hnil, hdrop, hfold, hany, hw]
  · have hany : ¬ rest.head?.any isWsp = true := hfold
    simp [hnil, hdrop, hfold, hany]

theorem parseHeaderValue_lines {value line : Text} (hline : '\r' ∉ line)
    (hlines : ∀ l ∈ lines, IsLine l) :
  parseHeaderValue value (line ++ crlfText ++ (unlines crlfText lines ++ crlfText))
    = .ok (unlines crlfText (lines.dropWhile isFold) ++ crlfText,
      Text.trim (value ++ line
        ++ (lines.takeWhile isFold).flatMap fun l => ' ' :: l.dropWhile isWsp))
  := by
  induction lines generalizing value line with
  | nil =>
    rw [parseHeaderValue_eq_ok, parseValueLine_append hline]
    refine .inl ⟨value ++ line, ?_, by simp⟩
    simp [isFold, crlfText, isWsp]
  | cons l lines ih =>
    have hl := hlines l mem_cons_self
    have htail : ∀ k ∈ lines, IsLine k := fun k hk => hlines k (mem_cons_of_mem _ hk)
    have hfold : isFold (unlines crlfText (l :: lines) ++ crlfText) = isFold l := by
      cases l with
      | nil => exact absurd rfl hl.ne_nil
      | cons c l => simp [isFold]
    rw [parseHeaderValue_eq_ok, parseValueLine_append hline, hfold, takeWhile_cons, dropWhile_cons]
    by_cases h : isFold l = true
    · -- the continuation line is read by the induction hypothesis, without its white space
      have hcr : '\r' ∉ l.dropWhile isWsp := fun hmem =>
        hl.cr ((dropWhile_sublist isWsp).mem hmem)
      have hdrop : (unlines crlfText (l :: lines) ++ crlfText).dropWhile isWsp
          = l.dropWhile isWsp ++ crlfText ++ (unlines crlfText lines ++ crlfText) := by
        rw [unlines_cons, append_assoc, append_assoc, dropWhile_append]
        split
        · rename_i hnil
          rw [List.isEmpty_iff] at hnil
          simp [hnil, crlfText, isWsp]
        · simp
      refine .inr ⟨(unlines crlfText (l :: lines) ++ crlfText).dropWhile isWsp,
        value ++ line ++ [' '], ?_, ?_⟩
      · rw [if_pos]
        apply And.intro h
        rw [hdrop]
        simp [crlfText]
      · rw [hdrop, ih hcr htail, if_pos h, if_pos h]
        simp
    · refine .inl ⟨value ++ line, ?_, ?_⟩
      · rw [if_neg fun hc => h hc.1, if_neg h]
      · rw [if_neg h]
        simp

/-! ### Header lines -/

/-- A line with a name and a colon, and the continuation lines after it, are one field. -/
theorem parseHeaderLine_lines {line rest name value : Text} (hline : IsLine line)
    (hfold : isFold line = false) (hlines : ∀ l ∈ lines, IsLine l) :
  parseHeaderLine (unlines crlfText (line :: lines) ++ crlfText) = .ok (rest, name, value)
    ↔ ∃ token ws text, line = token ++ ws ++ ':' :: text ∧ token ≠ []
      ∧ (∀ c ∈ token, isNameChar c = true) ∧ (∀ c ∈ ws, isWsp c = true)
      ∧ name = Text.trimAscii token
      ∧ value = Text.trim (foldText text (lines.takeWhile isFold))
      ∧ rest = unlines crlfText (lines.dropWhile isFold) ++ crlfText
  := by
  have hdrop : (unlines crlfText (line :: lines) ++ crlfText).dropWhile isWsp
      = line ++ '\r' :: ('\n' :: (unlines crlfText lines ++ crlfText)) := by
    obtain ⟨c, l, rfl⟩ := exists_cons_of_ne_nil hline.ne_nil
    have hc : isWsp c = false := by simpa [isFold] using hfold
    simp [hc, crlfText]
  have hvalue (text : Text) (htext : '\r' ∉ text) :
      parseHeaderValue []
        ((text ++ '\r' :: ('\n' :: (unlines crlfText lines ++ crlfText))).dropWhile isWsp)
        = .ok (unlines crlfText (lines.dropWhile isFold) ++ crlfText,
          Text.trim (foldText text (lines.takeWhile isFold))) := by
    have hcr : '\r' ∉ text.dropWhile isWsp := fun hmem =>
      htext ((dropWhile_sublist isWsp).mem hmem)
    have h := @parseHeaderValue_lines _ [] _ hcr hlines
    have hstrip : (text ++ '\r' :: ('\n' :: (unlines crlfText lines ++ crlfText))).dropWhile isWsp
        = text.dropWhile isWsp ++ crlfText ++ (unlines crlfText lines ++ crlfText) := by
      rw [dropWhile_append]
      split
      · rename_i hnil
        rw [List.isEmpty_iff] at hnil
        simp [hnil, crlfText, isWsp]
      · simp [crlfText]
    rw [hstrip, h, foldText, nil_append]
  rw [parseHeaderLine_eq_ok, hdrop]
  constructor
  · rintro ⟨token, ws, text, he, hne, htoken, hws, rfl, hv⟩
    have hcr : '\r' ∉ token ++ ws ++ [':'] := by
      simp only [mem_append, mem_singleton, not_or]
      refine ⟨⟨fun h => ?_, fun h => ?_⟩, by decide⟩
      · simpa [isNameChar] using htoken _ h
      · simpa [isWsp] using hws _ h
    have he' : token ++ ws ++ [':'] ++ text
        = line ++ '\r' :: ('\n' :: (unlines crlfText lines ++ crlfText)) := by
      simp [he]
    obtain ⟨z, hz, rfl⟩ := exists_of_append_eq_append_cons hcr he'
    have hzcr : '\r' ∉ z := by
      intro hmem
      apply hline.cr
      rw [hz]
      simp [hmem]
    rw [hvalue z hzcr] at hv
    cases hv
    exact ⟨token, ws, z, by simp [hz], hne, htoken, hws, rfl, rfl, rfl⟩
  · rintro ⟨token, ws, text, rfl, hne, htoken, hws, rfl, rfl, rfl⟩
    have htext : '\r' ∉ text := by
      intro hmem
      apply hline.cr
      simp [hmem]
    exact ⟨token, ws, _, by simp, hne, htoken, hws, rfl, hvalue text htext⟩

/-! ### Header sections -/

theorem parseHeadersFrom_crlf (h : SipHeaders) :
  parseHeadersFrom h crlfText = .ok ([], h)
  := by
  rw [parseHeadersFrom, if_neg (by decide)]
  rfl

theorem parseHeadersFrom_cons {h : SipHeaders} {line : Text} {x : Text × SipHeaders}
    (hline : IsLine line) :
  parseHeadersFrom h (unlines crlfText (line :: lines) ++ crlfText) = .ok x
    ↔ isFold line = false ∧ ∃ rest name value,
      parseHeaderLine (unlines crlfText (line :: lines) ++ crlfText) = .ok (rest, name, value)
      ∧ parseHeadersFrom (h.add name value) rest = .ok x
  := by
  have hfold : (unlines crlfText (line :: lines) ++ crlfText).head?.any isWsp = isFold line := by
    obtain ⟨c, l, rfl⟩ := exists_cons_of_ne_nil hline.ne_nil
    simp [isFold]
  have hcrlf : (unlines crlfText (line :: lines) ++ crlfText).dropPrefix? crlfText = none := by
    obtain ⟨c, l, rfl⟩ := exists_cons_of_ne_nil hline.ne_nil
    have hc : c ≠ '\r' := by
      rintro rfl
      apply hline.cr mem_cons_self
    simp [crlfText, List.dropPrefix?, hc]
  have hlf : (unlines crlfText (line :: lines) ++ crlfText).dropPrefix? ['\n'] = none := by
    obtain ⟨c, l, rfl⟩ := exists_cons_of_ne_nil hline.ne_nil
    have hc : c ≠ '\n' := by
      rintro rfl
      apply hline.lf mem_cons_self
    simp [List.dropPrefix?, hc]
  rw [parseHeadersFrom, if_neg (by simp [hline.ne_nil]), hcrlf, hlf, hfold]
  cases hl : isFold line with
  | true => simp
  | false =>
  simp only [Bool.false_eq_true, if_false, true_and]
  split <;> rename_i hp <;> simp only [hp, reduceCtorEq, Except.ok.injEq, Prod.mk.injEq]
  · simp
  constructor
  · intro hgo
    exact ⟨_, _, _, ⟨rfl, rfl, rfl⟩, hgo⟩
  · rintro ⟨_, _, _, ⟨rfl, rfl, rfl⟩, hgo⟩
    apply hgo

/-- The header parser reads exactly the fields some lines stand for. -/
theorem parseHeadersFrom_lines {h h' : SipHeaders} {rest : Text} (hlines : ∀ l ∈ lines, IsLine l) :
  parseHeadersFrom h (unlines crlfText lines ++ crlfText) = .ok (rest, h')
    ↔ rest = [] ∧ ∃ fields, Fields lines fields ∧ h' = addFields h fields
  := by
  induction hn : lines.length using Nat.strong_induction_on generalizing h lines with
  | _ n ih =>
  cases lines with
  | nil =>
    rw [unlines_nil, nil_append, parseHeadersFrom_crlf]
    constructor
    · rintro ⟨⟩
      exact ⟨rfl, [], Fields.nil, rfl⟩
    · rintro ⟨rfl, fields, hf, rfl⟩
      cases hf
      rfl
  | cons line lines =>
    have hline := hlines line mem_cons_self
    have htail : ∀ l ∈ lines, IsLine l := fun l hl => hlines l (mem_cons_of_mem _ hl)
    have hrest : ∀ l ∈ lines.dropWhile isFold, IsLine l := fun l hl =>
      htail l ((dropWhile_sublist isFold).mem hl)
    have hlen : (lines.dropWhile isFold).length < n := by
      have := (dropWhile_sublist isFold (l := lines)).length_le
      rw [← hn, length_cons]
      omega
    rw [parseHeadersFrom_cons hline]
    constructor
    · rintro ⟨hfold, after, name, value, hp, hgo⟩
      rw [parseHeaderLine_lines hline hfold htail] at hp
      obtain ⟨token, ws, text, rfl, hne, htoken, hws, rfl, rfl, rfl⟩ := hp
      obtain ⟨rfl, fields, hf, rfl⟩ := (ih _ hlen hrest rfl).mp hgo
      refine ⟨rfl, (_, _) :: fields, ?_, rfl⟩
      have hfolds : ∀ l ∈ lines.takeWhile isFold, isFold l = true := fun l hl =>
        mem_takeWhile_imp hl
      have hcons := @Fields.cons _ _ text _ _ _ hne htoken hws hfolds hf
      rwa [takeWhile_append_dropWhile] at hcons
    · rintro ⟨rfl, fields, hf, rfl⟩
      have hfold := hf.head?_isFold line rfl
      cases hf with
      | @cons token ws text folds lines fields hne htoken hws hfolds hf =>
        apply And.intro hfold
        have hspan := Slice.takeWhile_dropWhile_append hfolds hf.head?_isFold
        rw [hspan.2] at hlen hrest
        refine ⟨_, _, _, (parseHeaderLine_lines hline hfold htail).mpr
          ⟨token, ws, text, rfl, hne, htoken, hws, rfl, rfl, rfl⟩, ?_⟩
        rw [hspan.1, hspan.2, ih _ hlen hrest rfl]
        exact ⟨rfl, fields, hf, rfl⟩

/-! ### Line ends in octets -/

/-- Octets without CR or LF. -/
def Clean (l : Bytes) : Prop :=
  13 ∉ l ∧ 10 ∉ l

theorem IsLine.clean {l : Text} (h : IsLine l) :
  Clean (encode l)
  := ⟨fun hmem => h.cr ((mem_encode_iff (c := '\r') (by decide)).mp hmem),
    fun hmem => h.lf ((mem_encode_iff (c := '\n') (by decide)).mp hmem)⟩

variable {previous : Option UInt8}

theorem exists_lines_of_validateFrom {i : ℕ} {l : Bytes} (hprev : previous ≠ some 13)
    (h : validateFrom i previous l = .ok ()) :
  ∃ ls t, l = unlines crlf ls ++ t ∧ Clean t ∧ ∀ k ∈ ls, Clean k
  := by
  induction hn : l.length using Nat.strong_induction_on generalizing i previous l with
  | _ n ih =>
  cases l with
  | nil => exact ⟨[], [], rfl, by simp [Clean], by simp⟩
  | cons b rest =>
  rw [validateFrom] at h
  split at h
  · cases h
  rename_i hlf
  have hb : b ≠ 10 := fun hb => hlf ⟨hb, hprev⟩
  split at h
  · cases h
  rename_i hcr
  by_cases hb13 : b = 13
  · -- a CR is followed by its LF, and an empty line ends here
    obtain ⟨r, rfl⟩ : ∃ r, rest = 10 :: r := by
      cases rest with
      | nil => simp [hb13] at hcr
      | cons d r => exact ⟨r, by simpa [hb13] using hcr⟩
    have hr : validateFrom (i + 1 + 1) (some 10) r = .ok () := by
      simpa [validateFrom, hb13] using h
    have hlt : r.length < n := by
      rw [← hn, length_cons, length_cons]
      omega
    obtain ⟨ls, t, rfl, ht, hls⟩ := ih r.length hlt (by decide) hr rfl
    refine ⟨[] :: ls, t, by simp [hb13, crlf], ht, ?_⟩
    simpa [Clean] using hls
  · obtain ⟨ls, t, rfl, ht, hls⟩ := ih rest.length (by simp [← hn]) (by simp [hb13]) h rfl
    have hbt (k : Bytes) (hk : Clean k) : Clean (b :: k) := by
      simp only [Clean, mem_cons, not_or]
      exact ⟨⟨Ne.symm hb13, hk.1⟩, Ne.symm hb, hk.2⟩
    cases ls with
    | nil => exact ⟨[], b :: t, by simp, hbt t ht, by simp⟩
    | cons k ls =>
    refine ⟨(b :: k) :: ls, t, by simp, ht, ?_⟩
    intro k' hk'
    rcases mem_cons.mp hk' with rfl | hk'
    · apply hbt k (hls k mem_cons_self)
    · apply hls k' (mem_cons_of_mem _ hk')

theorem validateFrom_line {i : ℕ} {k rest : Bytes} (hk : Clean k) :
  validateFrom i previous (k ++ crlf ++ rest) = validateFrom (i + k.length + 2) (some 10) rest
  := by
  induction k generalizing i previous with
  | nil => simp [validateFrom, crlf]
  | cons b k ih =>
  simp only [Clean, mem_cons, not_or] at hk
  have hcr : b ≠ 13 := Ne.symm hk.1.1
  have hlf : b ≠ 10 := Ne.symm hk.2.1
  rw [cons_append, cons_append, validateFrom, if_neg (by simp [hlf]),
    if_neg (by simp [hcr]), ih ⟨hk.1.2, hk.2.2⟩, length_cons]
  congr 1
  omega

theorem validateFrom_unlines {i : ℕ} {ls : List Bytes} (h : ∀ k ∈ ls, Clean k) :
  validateFrom i previous (unlines crlf ls) = .ok ()
  := by
  induction ls generalizing i previous with
  | nil => rfl
  | cons k ls ih =>
  rw [unlines_cons, validateFrom_line (h k mem_cons_self)]
  apply ih fun k' hk' => h k' (mem_cons_of_mem _ hk')

variable {ls : List Bytes}

theorem exists_text_lines {t : Text} (h : encode t = unlines crlf ls) :
  ∃ tls, t = unlines crlfText tls ∧ ls = tls.map encode
  := by
  induction ls generalizing t with
  | nil =>
    refine ⟨[], ?_, rfl⟩
    simpa [encode_eq_nil] using h
  | cons k ls ih =>
    have hk : encode t = k ++ 13 :: (10 :: unlines crlf ls) := by simpa [crlf] using h
    obtain ⟨s, c, u, rfl, hc, rfl, hu⟩ := encode_eq_append_cons (by decide) hk
    obtain ⟨s', d, v, rfl, hd, hs', hv⟩ := encode_eq_append_cons (x := []) (by decide) hu.symm
    obtain rfl := encode_eq_nil.mp hs'.symm
    obtain rfl : c = '\r' := Char.toNat_inj.mp hc
    obtain rfl : d = '\n' := Char.toNat_inj.mp hd
    obtain ⟨tls, rfl, rfl⟩ := ih hv.symm
    exact ⟨s :: tls, by simp [crlfText], rfl⟩

theorem encode_unlines (ls : List Text) :
  encode (unlines crlfText ls) = unlines crlf (ls.map encode)
  := by
  rw [unlines, encode_flatMap, unlines, flatMap_map]
  apply flatMap_congr
  intro l _
  rw [encode_append]
  rfl

/-! ### The block -/

def crlfPairs (k : ℕ) : Bytes :=
  (List.replicate k crlf).flatten

@[simp] theorem crlfPairs_zero :
  crlfPairs 0 = []
  := rfl

@[simp] theorem crlfPairs_succ (k : ℕ) :
  crlfPairs (k + 1) = 13 :: 10 :: crlfPairs k
  := by
  simp [crlfPairs, replicate_succ, crlf]

@[simp] theorem length_crlfPairs (k : ℕ) :
  (crlfPairs k).length = 2 * k
  := by
  simp [crlfPairs, crlf, Nat.mul_comm]

theorem exists_crlfPairs (b : Bytes) :
  ∃ k block, b = crlfPairs k ++ block ∧ ¬ crlf <+: block
  := by
  fun_induction leadingCrlfLen b with
  | case1 rest ih =>
    obtain ⟨k, block, rfl, hblock⟩ := ih
    exact ⟨k + 1, block, by simp, hblock⟩
  | case2 b hb =>
    refine ⟨0, b, rfl, ?_⟩
    rintro ⟨t, rfl⟩
    apply hb t rfl

theorem leadingCrlfLen_append {k : ℕ} {block : Bytes} (h : ¬ crlf <+: block) :
  leadingCrlfLen (crlfPairs k ++ block) = 2 * k
  := by
  induction k with
  | zero =>
    rw [crlfPairs_zero, nil_append, leadingCrlfLen]
    rintro rest rfl
    apply h ⟨rest, rfl⟩
  | succ k ih =>
    rw [crlfPairs_succ, cons_append, cons_append, leadingCrlfLen, ih]
    omega

/-- A byte string made of leading CRLF pairs, the lines of a header block, the empty line and
what follows. -/
structure HeadLines (b : Bytes) (k : ℕ) (start : Text) (lines : List Text) (rest : Bytes) :
    Prop where
  eq : b = crlfPairs k ++ (encode (unlines crlfText (start :: lines)) ++ crlf ++ rest)
  isLine : ∀ l ∈ start :: lines, IsLine l

namespace HeadLines

variable {b : Bytes} {k : ℕ} {start : Text} {lines : List Text} {rest : Bytes}

section

variable (h : HeadLines b k start lines rest)

include h

theorem clean :
  ∀ l ∈ (start :: lines).map encode, l ≠ [] ∧ Clean l
  := by
  intro l hl
  obtain ⟨t, ht, rfl⟩ := mem_map.mp hl
  have hline := h.isLine t ht
  exact ⟨fun hnil => hline.ne_nil (encode_eq_nil.mp hnil), hline.clean⟩

theorem not_crlf_prefix :
  ¬ crlf <+: encode (unlines crlfText (start :: lines)) ++ crlf ++ rest
  := by
  rw [encode_unlines, map_cons, unlines_cons]
  have hstart := h.clean (encode start) (by simp)
  rintro ⟨t, ht⟩
  cases hs : encode start with
  | nil => apply hstart.1 hs
  | cons c s =>
  rw [hs] at ht hstart
  simp only [crlf, cons_append, List.cons.injEq] at ht
  apply hstart.2.1
  simp [ht.1]

theorem leadingCrlfLen_eq :
  leadingCrlfLen b = 2 * k
  := by
  rw [h.eq, leadingCrlfLen_append h.not_crlf_prefix]

theorem drop_eq :
  b.drop (2 * k) = encode (unlines crlfText (start :: lines)) ++ crlf ++ rest
  := by
  rw [h.eq, drop_left' (length_crlfPairs k)]

end

theorem two_le_length (start : Text) (lines : List Text) :
  2 ≤ (encode (unlines crlfText (start :: lines))).length
  := by
  rw [encode_unlines, map_cons, unlines_cons]
  simp only [crlf, length_append, length_cons]
  omega

theorem findHeaderBoundary_eq (h : HeadLines b k start lines rest) :
  findHeaderBoundary (encode (unlines crlfText (start :: lines)) ++ crlf ++ rest)
    = some ((encode (unlines crlfText (start :: lines))).length - 2)
  := by
  rw [encode_unlines, map_cons]
  apply position_blank_line rest (by decide)
  intro l hl
  have hclean := h.clean l hl
  exact ⟨hclean.1, hclean.2.1⟩

end HeadLines

theorem ne_nil_of_position {rest : Bytes} (hblock : ¬ crlf <+: unlines crlf ls ++ crlf ++ rest)
    (hpos : findHeaderBoundary (unlines crlf ls ++ crlf ++ rest)
      = some ((unlines crlf ls).length - 2)) :
  [] ∉ ls
  := by
  intro hmem
  obtain ⟨p, q, rfl⟩ := append_of_mem hmem
  cases p using List.reverseRecOn with
  | nil =>
    apply hblock
    simp [crlf]
  | append_singleton p x =>
    obtain ⟨-, -, hmin⟩ := Slice.position_eq_some_iff.mp hpos
    apply hmin ((unlines crlf p).length + x.length)
    · simp only [unlines_append, unlines_cons, unlines_nil, length_append,
        crlf, length_cons, length_nil]
      omega
    · have heq : unlines crlf (p ++ [x] ++ [] :: q) ++ crlf ++ rest
          = (unlines crlf p ++ x) ++ ([13, 10, 13, 10] ++ (unlines crlf q ++ crlf ++ rest)) := by
        simp [crlf]
      rw [heq, drop_left' (by simp)]
      apply prefix_append

theorem exists_lines_of_validate {pre : Bytes}
    (h : validateHeaderLineEndings (pre ++ [13, 10, 13, 10]) = .ok ()) :
  ∃ ls, pre ++ crlf = unlines crlf ls ∧ ∀ k ∈ ls, Clean k
  := by
  obtain ⟨ls, t, hls, ht, hclean⟩ := exists_lines_of_validateFrom (by simp) h
  have hsplit : unlines crlf ls ++ t = pre ++ [13, 10, 13] ++ [10] := by simp [← hls]
  obtain rfl := eq_nil_of_append_eq_append_singleton ht.2 hsplit
  cases ls using List.reverseRecOn with
  | nil => simp at hsplit
  | append_singleton ls z =>
  have hlast : unlines crlf ls ++ z ++ crlf = pre ++ [13] ++ [10] ++ crlf := by
    simpa [crlf] using hls.symm
  rw [append_left_inj] at hlast
  have hz := hclean z (by simp)
  obtain rfl := eq_nil_of_append_eq_append_singleton hz.2 hlast
  refine ⟨ls, ?_, fun k hk => hclean k (by simp [hk])⟩
  simpa [crlf] using hlast.symm

theorem mapError_eq_ok {ε ε' α : Type} {f : ε → ε'} {x : Except ε α} {a : α} :
  x.mapError f = .ok a ↔ x = .ok a
  := by
  cases x <;> simp [Except.mapError]

/-- The body length some headers declare: that of the first `Content-Length`, or zero
without one. -/
def BodyLength (h : SipHeaders) (len : ℕ) : Prop :=
  (h.get "Content-Length".toList = none ∧ len = 0)
    ∨ ∃ v, h.get "Content-Length".toList = some v
      ∧ Decimal.parse (2 ^ 64) (Text.trim v) = some len

theorem checkContentLength_eq_ok {h : SipHeaders} {available : ℕ} :
  checkContentLength h available = .ok () ↔ ∃ len, BodyLength h len ∧ len ≤ available
  := by
  rw [checkContentLength]
  simp only [BodyLength]
  cases hv : h.get "Content-Length".toList with
  | none => simp
  | some v =>
  cases hn : Decimal.parse (2 ^ 64) (Text.trim v) with
  | none =>
    constructor
    · intro h
      dsimp only at h
      rw [hn] at h
      cases h
    · rintro ⟨len, ⟨h, -⟩ | ⟨v', hv', hlen⟩, -⟩
      · cases h
      · cases hv'
        rw [hn] at hlen
        cases hlen
  | some n =>
    dsimp only
    rw [hn]
    dsimp only
    split
    · rename_i hlt
      constructor
      · rintro ⟨⟩
      rintro ⟨len, ⟨hno, -⟩ | ⟨v', hv', hn'⟩, hle⟩
      · cases hno
      cases hv'
      rw [hn] at hn'
      cases hn'
      omega
    · rename_i hle
      constructor
      · intro _
        exact ⟨n, .inr ⟨v, rfl, hn⟩, by omega⟩
      · intro _
        rfl

theorem BodyLength.contentLength_getD {h : SipHeaders} {len : ℕ} (hlen : BodyLength h len) :
  h.contentLength.getD 0 = len
  := by
  rw [SipHeaders.contentLength]
  rcases hlen with ⟨hv, rfl⟩ | ⟨v, hv, hn⟩
  · rw [hv, Option.bind_none, Option.getD_none]
  · rw [hv, Option.bind_some, hn, Option.getD_some]

section

variable [StdText] {b : Bytes}

/-- A header block that is accepted is made of lines. -/
theorem exists_headLines {x : StartLine × SipHeaders × ℕ} (h : parseHeaderBlock b = .ok x) :
  ∃ k start lines rest, HeadLines b k start lines rest
  := by
  obtain ⟨k, block, rfl, hblock⟩ := exists_crlfPairs b
  rw [parseHeaderBlock, leadingCrlfLen_append hblock, drop_left' (length_crlfPairs k)] at h
  cases hpos : findHeaderBoundary block with
  | none => simp [hpos] at h
  | some position =>
  simp only [hpos, Nom.bind_eq_ok] at h
  obtain ⟨⟨⟩, hvalid, h⟩ := h
  cases hdec : decode (block.take (position + 4)) with
  | none => simp [hdec] at h
  | some text =>
  obtain ⟨rest, hrest, hlen⟩ := Slice.take_append_of_position hpos
  generalize block.take position = pre at hrest hlen
  have htake : block.take (position + 4) = pre ++ [13, 10, 13, 10] := by
    rw [hrest, take_left' (by simp [hlen])]
  rw [htake] at hvalid hdec
  obtain ⟨ls, hls, hclean⟩ := exists_lines_of_validate hvalid
  have hblockEq : block = unlines crlf ls ++ crlf ++ rest := by
    rw [hrest, ← hls]
    simp [crlf]
  have hpre : position = (unlines crlf ls).length - 2 := by
    rw [← hls, hlen]
    simp [crlf]
  rw [hblockEq] at hblock
  rw [hblockEq, hpre] at hpos
  have hnil := ne_nil_of_position hblock hpos
  have henc : encode text = unlines crlf (ls ++ [[]]) := by
    rw [← decode_eq_some_iff.mp hdec, unlines_append, ← hls]
    simp [crlf]
  obtain ⟨tls, -, htls⟩ := exists_text_lines henc
  obtain ⟨tls, last, rfl, rfl, -⟩ := map_eq_append_iff.mp htls.symm
  cases tls with
  | nil => simp [crlf] at hls
  | cons start lines =>
  refine ⟨k, start, lines, rest, by rw [hblockEq, encode_unlines], ?_⟩
  intro l hl
  have hmem := mem_map_of_mem (f := encode) hl
  have hl' := hclean _ hmem
  refine ⟨?_, ?_, ?_⟩
  · rintro rfl
    apply hnil hmem
  · intro hcr
    apply hl'.1 ((mem_encode_iff (c := '\r') (by decide)).mpr hcr)
  · intro hlf
    apply hl'.2 ((mem_encode_iff (c := '\n') (by decide)).mpr hlf)

/-- A block of lines is accepted if its start line and its header lines are. -/
theorem HeadLines.parseHeaderBlock_eq_ok {k : ℕ} {start : Text} {rest : Bytes}
    (hb : HeadLines b k start lines rest) {s : StartLine} {h : SipHeaders} {n : ℕ} :
  parseHeaderBlock b = .ok (s, h, n)
    ↔ (∃ r, parseStartLine (unlines crlfText (start :: lines) ++ crlfText) = .ok (r, s))
      ∧ (∃ fields, Fields lines fields ∧ h = addFields new fields)
      ∧ n = 2 * k + ((encode (unlines crlfText (start :: lines))).length - 2)
  := by
  have hlen := two_le_length start lines
  have htake : (encode (unlines crlfText (start :: lines)) ++ crlf ++ rest).take
      ((encode (unlines crlfText (start :: lines))).length - 2 + 4)
      = encode (unlines crlfText (start :: lines) ++ crlfText) := by
    rw [encode_append]
    apply take_left'
    simp only [crlf, length_append, length_cons, length_nil]
    omega
  have hvalid : validateHeaderLineEndings (encode (unlines crlfText (start :: lines) ++ crlfText))
      = .ok () := by
    have hclean : ∀ l ∈ (start :: lines ++ [[]]).map encode, Clean l := by
      intro l hl
      rw [map_append, mem_append] at hl
      rcases hl with hl | hl
      · apply (hb.clean l hl).2
      · obtain rfl : l = [] := by simpa using hl
        simp [Clean]
    have h := @validateFrom_unlines none 0 _ hclean
    rwa [← encode_unlines, unlines_append] at h
  have hdec : decode (encode (unlines crlfText (start :: lines) ++ crlfText))
      = some (unlines crlfText (start :: lines) ++ crlfText) := decode_eq_some_iff.mpr rfl
  have hafter : Slice.position crlfText (unlines crlfText (start :: lines) ++ crlfText)
      = some start.length := by
    rw [unlines_cons, append_assoc]
    apply Slice.position_append (hb.isLine start (by simp)).cr
  have hdrop : (unlines crlfText (start :: lines) ++ crlfText).drop (start.length + 2)
      = unlines crlfText lines ++ crlfText := by
    rw [unlines_cons, append_assoc]
    apply drop_left'
    simp [crlfText]
  have htail : ∀ l ∈ lines, IsLine l := fun l hl => hb.isLine l (mem_cons_of_mem _ hl)
  rw [parseHeaderBlock, hb.leadingCrlfLen_eq, hb.drop_eq]
  simp only [hb.findHeaderBoundary_eq, htake, hvalid, hdec, hafter, hdrop, Nom.bind_eq_ok,
    mapError_eq_ok, Prod.exists]
  constructor
  · rintro ⟨-, -, r, s', hs, r', h', hh, he⟩
    cases he
    exact ⟨⟨r, hs⟩, ((parseHeadersFrom_lines htail).mp hh).2, rfl⟩
  · rintro ⟨⟨r, hs⟩, hf, rfl⟩
    have hh := (parseHeadersFrom_lines (h := new) htail).mpr ⟨rfl, hf⟩
    exact ⟨(), trivial, r, s, hs, [], h, hh, rfl⟩

/-! ### The message -/

theorem parseSipMessageBytes_eq_ok {m : SipMessage} :
  parseSipMessageBytes b = .ok m
    ↔ ∃ n len, parseHeaderBlock b = .ok (m.startLine, m.headers, n) ∧ BodyLength m.headers len
      ∧ len ≤ b.length - (n + 4) ∧ m.body = (b.drop (n + 4)).take len
  := by
  have hbody (n len : ℕ) (hle : len ≤ b.length - (n + 4)) :
      (if 0 < len ∧ n + 4 + len ≤ b.length then (b.drop (n + 4)).take len
        else if len = 0 then [] else b.drop (n + 4)) = (b.drop (n + 4)).take len := by
    by_cases hzero : len = 0
    · simp [hzero]
    · rw [if_pos (by omega)]
  simp only [parseSipMessageBytes, Nom.bind_eq_ok, Prod.exists]
  constructor
  · rintro ⟨s, h, n, hblock, ⟨⟩, hcheck, hm⟩
    obtain ⟨len, hlen, hle⟩ := checkContentLength_eq_ok.mp hcheck
    rw [hlen.contentLength_getD, hbody n len hle] at hm
    cases hm
    exact ⟨n, len, hblock, hlen, hle, rfl⟩
  · rintro ⟨n, len, hblock, hlen, hle, hm⟩
    refine ⟨m.startLine, m.headers, n, hblock, (),
      checkContentLength_eq_ok.mpr ⟨len, hlen, hle⟩, ?_⟩
    rw [hlen.contentLength_getD, hbody n len hle, ← hm]
    rfl

theorem HeadLines.parseSipMessageBytes_eq_ok {k : ℕ} {start : Text} {rest : Bytes}
    (hb : HeadLines b k start lines rest) {m : SipMessage} :
  parseSipMessageBytes b = .ok m
    ↔ (∃ r, parseStartLine (unlines crlfText (start :: lines) ++ crlfText) = .ok (r, m.startLine))
      ∧ (∃ fields, Fields lines fields ∧ m.headers = addFields new fields)
      ∧ ∃ len, BodyLength m.headers len ∧ len ≤ rest.length ∧ m.body = rest.take len
  := by
  have hlen := two_le_length start lines
  have hstart : 2 * k + ((encode (unlines crlfText (start :: lines))).length - 2) + 4
      = (crlfPairs k ++ (encode (unlines crlfText (start :: lines)) ++ crlf)).length := by
    simp only [length_append, length_crlfPairs, crlf, length_cons, length_nil]
    omega
  have heq : b = crlfPairs k ++ (encode (unlines crlfText (start :: lines)) ++ crlf)
      ++ rest := by
    simp only [hb.eq, append_assoc]
  have hdrop : b.drop (2 * k + ((encode (unlines crlfText (start :: lines))).length - 2) + 4)
      = rest := by
    rw [hstart, heq, drop_left]
  have hrest : b.length
      - (2 * k + ((encode (unlines crlfText (start :: lines))).length - 2) + 4)
      = rest.length := by
    rw [← length_drop, hdrop]
  rw [Siphon.parseSipMessageBytes_eq_ok]
  constructor
  · rintro ⟨n, len, hblock, hbl, hle, hbody⟩
    obtain ⟨hs, hf, rfl⟩ := hb.parseHeaderBlock_eq_ok.mp hblock
    rw [hrest] at hle
    rw [hdrop] at hbody
    exact ⟨hs, hf, len, hbl, hle, hbody⟩
  · rintro ⟨hs, hf, len, hbl, hle, hbody⟩
    refine ⟨_, len, hb.parseHeaderBlock_eq_ok.mpr ⟨hs, hf, rfl⟩, hbl, ?_, ?_⟩
    · rwa [hrest]
    · rwa [hdrop]

end

end Siphon
