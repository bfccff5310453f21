import Siphon.Sip.LineSafety

/-!
# Messages written and read again

A message that was read is written as lines that are read as the same message, unless the
host of its target runs over the first line or a header field has no name left after
trimming.
-/

namespace Siphon

open List SipMessage
open SipHeaders (new row rows getAll)

open Lines (unlines)

/-! ### Rows -/

/-- A field as the parser stores it. -/
structure IsField (f : Text × Text) : Prop where
  name : ∀ c ∈ f.1, isNameChar c = true
  name_trim : Text.trimAscii f.1 = f.1
  value_trim : Text.trim f.2 = f.2

variable {lines : List Text}

theorem Fields.isField {fields : List (Text × Text)} (h : Fields lines fields) :
  ∀ f ∈ fields, IsField f
  := by
  induction h with
  | nil => simp
  | @cons token ws text folds lines fields hne htoken hws hfolds rest ih =>
  rintro f hf
  rcases mem_cons.mp hf with rfl | hf
  · exact ⟨fun c hc => htoken c (Slice.mem_of_mem_trimMatches hc),
      Slice.trimMatches_trimMatches _, Slice.trimMatches_trimMatches _⟩
  · apply ih f hf

theorem fields_cons_iff {line : Text} {fields : List (Text × Text)} :
  Fields (line :: lines) fields
    ↔ ∃ token ws text folds lines' fields', token ≠ [] ∧ (∀ c ∈ token, isNameChar c = true)
      ∧ (∀ c ∈ ws, isWsp c = true) ∧ (∀ l ∈ folds, isFold l = true)
      ∧ line = token ++ ws ++ ':' :: text ∧ lines = folds ++ lines'
      ∧ fields = (Text.trimAscii token, Text.trim (foldText text folds)) :: fields'
      ∧ Fields lines' fields'
  := by
  constructor
  · intro h
    cases h with
    | cons hne htoken hws hfolds rest =>
      exact ⟨_, _, _, _, _, _, hne, htoken, hws, hfolds, rfl, rfl, rfl, rest⟩
  · rintro ⟨token, ws, text, folds, lines', fields', hne, htoken, hws, hfolds, rfl, rfl, rfl, rest⟩
    apply Fields.cons hne htoken hws hfolds rest

theorem Fields.eq_nil (h : Fields lines []) :
  lines = []
  := by
  cases lines with
  | nil => rfl
  | cons line lines =>
  obtain ⟨_, _, _, _, _, _, -, -, -, -, -, -, hcons, -⟩ := fields_cons_iff.mp h
  cases hcons

theorem colon_not_mem_of_isNameChar {t : Text} (h : ∀ c ∈ t, isNameChar c = true) :
  ':' ∉ t
  := by
  intro hc
  cases h _ hc

theorem colon_not_mem_of_isWsp {t : Text} (h : ∀ c ∈ t, isWsp c = true) :
  ':' ∉ t
  := by
  intro hc
  cases h _ hc

theorem trim_foldText_space {v : Text} (h : Text.trim v = v) :
  Text.trim (foldText (' ' :: v) []) = v
  := by
  have hdrop : v.dropWhile isWsp = v := by
    cases v with
    | nil => rfl
    | cons c v =>
    have hhead := Slice.head?_trimMatches Text.isWhitespace (c :: v) c
    rw [show Slice.trimMatches Text.isWhitespace (c :: v) = c :: v from h] at hhead
    rw [dropWhile_cons, if_neg]
    intro hwsp
    simp only [isWsp, Bool.or_eq_true, beq_iff_eq] at hwsp
    rcases hwsp with rfl | rfl <;> cases hhead rfl
  have hspace : isWsp ' ' = true := rfl
  simp [foldText, hspace, hdrop, h]

theorem isFold_row {f : Text × Text} (h : IsField f) :
  isFold (row f.1 f.2) = false
  := by
  obtain ⟨name, value⟩ := f
  cases name with
  | nil => rfl
  | cons c name =>
  simp [row, isFold, isWsp_of_isNameChar (h.name c mem_cons_self)]

theorem fields_rows {fs : List (Text × Text)} (h : ∀ f ∈ fs, IsField f) (hne : ∀ f ∈ fs, f.1 ≠ []) :
  Fields (fs.map fun f => row f.1 f.2) fs
  := by
  induction fs with
  | nil => apply Fields.nil
  | cons f fs ih =>
  have hf := h f mem_cons_self
  have htail := ih (fun g hg => h g (mem_cons_of_mem _ hg))
    fun g hg => hne g (mem_cons_of_mem _ hg)
  rw [map_cons, fields_cons_iff]
  refine ⟨f.1, [], ' ' :: f.2, [], _, fs, hne f mem_cons_self, hf.name, by simp, by simp, ?_,
    rfl, ?_, htail⟩
  · simp [row]
  · rw [hf.name_trim, trim_foldText_space hf.value_trim]

/-- Rows of stored fields are read as nothing but those fields, and each has a name. -/
theorem Fields.of_rows {fs gs : List (Text × Text)} (hfs : ∀ f ∈ fs, IsField f)
    (h : Fields (fs.map fun f => row f.1 f.2) gs) :
  gs = fs ∧ ∀ f ∈ fs, f.1 ≠ []
  := by
  induction fs generalizing gs with
  | nil =>
    cases h
    simp
  | cons f fs ih =>
    have hf := hfs f mem_cons_self
    have htail : ∀ g ∈ fs, IsField g := fun g hg => hfs g (mem_cons_of_mem _ hg)
    obtain ⟨token, ws, text, folds, lines', fields', hne, htoken, hws, hfolds, hline, hlines, rfl,
      rest⟩ := fields_cons_iff.mp h
    -- No row continues the one before it.
    have hnil : folds = [] := by
      rw [eq_nil_iff_forall_not_mem]
      intro l hl
      have hmem : l ∈ fs.map fun f => row f.1 f.2 := by
        rw [hlines]
        apply mem_append_left _ hl
      obtain ⟨g, hg, rfl⟩ := mem_map.mp hmem
      have hfold := hfolds _ hl
      rw [isFold_row (htail g hg)] at hfold
      cases hfold
    subst hnil
    rw [nil_append] at hlines
    obtain ⟨rfl, hnames⟩ := ih htail (hlines ▸ rest)
    have hcut : f.1 ++ ':' :: (' ' :: f.2) = token ++ ws ++ ':' :: text := by
      rw [← hline]
      simp [row]
    have hcolon : ':' ∉ token ++ ws := by
      simp [colon_not_mem_of_isNameChar htoken, colon_not_mem_of_isWsp hws]
    obtain ⟨hname, rfl⟩ := Lines.append_cons_inj (colon_not_mem_of_isNameChar hf.name) hcolon hcut
    have hwsnil : ws = [] := by
      rw [eq_nil_iff_forall_not_mem]
      intro c hc
      have hc' := isWsp_of_isNameChar (hf.name c (by simp [hname, hc]))
      rw [hws c hc] at hc'
      cases hc'
    rw [hwsnil, append_nil] at hname
    subst hname
    rw [hf.name_trim, trim_foldText_space hf.value_trim]
    refine ⟨rfl, ?_⟩
    rw [forall_mem_cons]
    exact ⟨hne, hnames⟩

/-! ### Header fields in the order they are written -/

def entryFields (e : SipHeaders.Entry) : List (Text × Text) :=
  e.2.2.map fun value => (e.2.1, value)

def SipHeaders.fields (h : SipHeaders) : List (Text × Text) :=
  h.wireOrder.flatMap entryFields

theorem SipHeaders.rows_eq (h : SipHeaders) :
  h.rows = h.fields.map fun f => row f.1 f.2
  := by
  simp only [rows, SipHeaders.fields, entryFields, map_flatMap, map_map]
  rfl

variable {h : SipHeaders}

theorem entries_addFields_entry {e : SipHeaders.Entry} (hnew : e.1 ∉ h.headers.entries.map Prod.fst)
    (hcanonical : e.1 = canonicalKey e.2.1) (hne : e.2.2 ≠ []) :
  (addFields h (entryFields e)).headers.entries = h.headers.entries ++ [e]
  := by
  obtain ⟨key, name, values⟩ := e
  dsimp only at hcanonical hne hnew
  subst hcanonical
  rw [entryFields]
  -- The first value makes the entry, the others are appended to it.
  induction values using List.reverseRecOn with
  | nil => exact absurd rfl hne
  | append_singleton values value ih =>
  rw [map_append, map_singleton, addFields_concat]
  by_cases hnil : values = []
  · subst hnil
    have happend := IndexMap.upsertList_append (v := (name, [value]))
      (f := fun e => (e.1, e.2 ++ [value])) [] hnew
    rw [append_nil] at happend
    apply happend
  · change IndexMap.upsertList _ _ _ _ = _
    rw [ih hnil, IndexMap.upsertList_append _ hnew]
    simp [IndexMap.upsertList]

theorem entries_addFields (es : List SipHeaders.Entry) (hnodup : (es.map Prod.fst).Nodup)
    (hcanonical : ∀ e ∈ es, e.1 = canonicalKey e.2.1) (hne : ∀ e ∈ es, e.2.2 ≠ []) :
  (addFields new (es.flatMap entryFields)).headers.entries = es
  := by
  induction es using List.reverseRecOn with
  | nil => rfl
  | append_singleton es e ih =>
  rw [map_append, map_singleton, nodup_append] at hnodup
  have hes := ih hnodup.1 (fun x hx => hcanonical x (by simp [hx])) fun x hx => hne x (by simp [hx])
  have hstep : addFields new ((es ++ [e]).flatMap entryFields)
      = addFields (addFields new (es.flatMap entryFields)) (entryFields e) := by
    simp [addFields]
  rw [hstep, entries_addFields_entry, hes]
  · rw [hes]
    intro hmem
    apply hnodup.2.2 e.1 hmem e.1 (by simp) rfl
  · apply hcanonical e (by simp)
  · apply hne e (by simp)

section

variable {fields : List (Text × Text)} {h : SipHeaders}

section

variable (hh : h = addFields new fields)

include hh

theorem isField_fields (hfields : ∀ f ∈ fields, IsField f) :
  ∀ f ∈ h.fields, IsField f
  := by
  intro f hf
  obtain ⟨e, he, hf⟩ := mem_flatMap.mp hf
  obtain ⟨value, hvalue, rfl⟩ := mem_map.mp hf
  have hentry := h.wireOrder_perm.mem_iff.mp he
  subst hh
  obtain ⟨hname, -, hvalues⟩ := mem_entries_addFields hentry
  obtain ⟨g, hg, hfst⟩ := mem_map.mp hname
  obtain ⟨k, hk, hsnd⟩ := mem_map.mp (hvalues value hvalue)
  constructor
  · rw [← hfst]
    apply (hfields g hg).name
  · rw [← hfst]
    apply (hfields g hg).name_trim
  · rw [← hsnd]
    apply (hfields k hk).value_trim

theorem entries_addFields_fields :
  (addFields new h.fields).headers.entries = h.wireOrder
  := by
  apply entries_addFields
  · rw [(h.wireOrder_perm.map _).nodup_iff]
    apply h.headers.nodup
  · intro e he
    apply h.canonical e (h.wireOrder_perm.mem_iff.mp he)
  · intro e he
    subst hh
    apply (mem_entries_addFields ((SipHeaders.wireOrder_perm _).mem_iff.mp he)).2.1

theorem getAll_addFields_fields (name : Text) :
  (addFields new h.fields).getAll name = h.getAll name
  := by
  have hperm := h.wireOrder_perm
  rw [← entries_addFields_fields hh] at hperm
  rw [getAll, getAll, IndexMap.get?_of_perm hperm]

theorem rows_addFields_fields :
  (addFields new h.fields).rows = h.rows
  := by
  have hentries := entries_addFields_fields hh
  rw [rows, SipHeaders.wireOrder_of_ordered, hentries, rows]
  rw [hentries]
  apply h.ordered_wireOrder

end

end

/-! ### Header fields without a name -/

/-- Whether a header line has nothing but white space in front of its colon. -/
def namesNothing (line : Text) : Bool :=
  !isFold line && (Text.trimAscii (line.takeWhile (· ≠ ':'))).isEmpty

variable {fields : List (Text × Text)}

theorem Fields.name_ne_nil_iff (h : Fields lines fields) :
  (∀ f ∈ fields, f.1 ≠ []) ↔ ∀ l ∈ lines, namesNothing l = false
  := by
  induction h with
  | nil => simp
  | @cons token ws text folds lines fields hne htoken hws hfolds rest ih =>
  have hcolon : ∀ c ∈ token ++ ws, decide (c ≠ ':') = true := by
    intro c hc
    rw [decide_eq_true_eq]
    rintro rfl
    rcases mem_append.mp hc with hc | hc
    · apply colon_not_mem_of_isNameChar htoken hc
    · apply colon_not_mem_of_isWsp hws hc
  have htake := (Slice.takeWhile_dropWhile_append (r := ':' :: text) hcolon
    (by rintro c ⟨⟩; rfl)).1
  have hwsAscii : ∀ c ∈ ws, Text.isAsciiWhitespace c = true := by
    intro c hc
    have hwsp := hws c hc
    simp only [isWsp, Bool.or_eq_true, beq_iff_eq] at hwsp
    rcases hwsp with rfl | rfl <;> rfl
  have htrim : Text.trimAscii (token ++ ws) = Text.trimAscii token :=
    Slice.trimMatches_append_right hwsAscii
  have hfirst : isFold (token ++ ws ++ ':' :: text) = false :=
    (Fields.cons hne htoken hws hfolds rest).head?_isFold _ rfl
  have hhead : namesNothing (token ++ ws ++ ':' :: text) = false
      ↔ Text.trimAscii token ≠ [] := by
    rw [namesNothing, htake, htrim, hfirst]
    simp
  have hfoldLines : ∀ l ∈ folds, namesNothing l = false := by
    intro l hl
    rw [namesNothing, hfolds l hl]
    rfl
  rw [forall_mem_cons, forall_mem_cons, forall_mem_append, hhead, ih]
  tauto

theorem canonicalKey_ne_nil {name : Text} (h : name ≠ []) :
  canonicalKey name ≠ []
  := by
  apply canonicalKey_cases (P := fun key => key ≠ [])
  · intro c full hfull
    unfold compactForm at hfull
    split at hfull <;> cases hfull <;> decide
  · intro _
    simpa [Text.toAsciiLowercase] using h

theorem name_ne_nil_fields (hh : h = addFields new fields) :
  (∀ f ∈ h.fields, f.1 ≠ []) ↔ ∀ f ∈ fields, f.1 ≠ []
  := by
  constructor
  · rintro hne f hf hnil
    have hvalues : valuesOf fields [] ≠ [] := by
      apply ne_nil_of_mem (a := f.2)
      apply mem_map.mpr ⟨f, mem_filter.mpr ⟨hf, by simp [hnil]⟩, rfl⟩
    have hget : ∃ e, h.headers.get? (canonicalKey []) = some e := by
      have hall := getAll_addFields new fields []
      rw [if_neg hvalues, ← hh, getAll, Option.map_eq_some_iff] at hall
      obtain ⟨e, he, -⟩ := hall
      exact ⟨e, he⟩
    obtain ⟨e, he⟩ := hget
    have hentry := IndexMap.get?_eq_some_iff.mp he
    have hname : e.1 = [] := by
      by_contra hne
      apply canonicalKey_ne_nil hne
      rw [← h.canonical _ hentry]
      rfl
    obtain ⟨v, vs, hv⟩ := exists_cons_of_ne_nil
      (mem_entries_addFields (hh ▸ hentry)).2.1
    have hmem : v ∈ e.2 := by
      rw [show e.2 = v :: vs from hv]
      apply mem_cons_self
    apply hne (e.1, v) _ hname
    exact mem_flatMap.mpr ⟨_, h.wireOrder_perm.mem_iff.mpr hentry,
      mem_map.mpr ⟨v, hmem, rfl⟩⟩
  · intro hne f hf
    obtain ⟨e, he, hf⟩ := mem_flatMap.mp hf
    obtain ⟨value, -, rfl⟩ := mem_map.mp hf
    have hentry := h.wireOrder_perm.mem_iff.mp he
    obtain ⟨g, hg, hfst⟩ := mem_map.mp (mem_entries_addFields (hh ▸ hentry)).1
    rw [← hfst]
    apply hne g hg

/-! ### Lines in front of the rows -/

theorem Fields.append_inv {ls ks : List Text} (hks : ∀ l ∈ ks.head?, isFold l = false)
    (h : Fields (ls ++ ks) fields) :
  ∃ fs gs, fields = fs ++ gs ∧ Fields ls fs ∧ Fields ks gs
  := by
  induction hn : ls.length using Nat.strong_induction_on generalizing ls fields with
  | _ n ih =>
  cases ls with
  | nil => exact ⟨[], fields, rfl, Fields.nil, h⟩
  | cons l ls =>
  obtain ⟨token, ws, text, folds, lines, fields', hne, htoken, hws, hfolds, hline, hlines, rfl,
    rest⟩ := fields_cons_iff.mp h
  -- The continuation lines of the first line end before the second group.
  obtain ⟨ls', rfl, rfl⟩ : ∃ ls', ls = folds ++ ls' ∧ lines = ls' ++ ks := by
    rcases append_eq_append_iff.mp hlines with ⟨z, rfl, rfl⟩ | ⟨z, rfl, rfl⟩
    · cases z with
      | nil => exact ⟨[], by simp, by simp⟩
      | cons k z =>
      have hk := hks k rfl
      rw [hfolds k (by simp)] at hk
      cases hk
    · exact ⟨z, rfl, rfl⟩
  have hlt : ls'.length < n := by
    rw [← hn, length_cons, length_append]
    omega
  obtain ⟨fs, gs, rfl, hfs, hgs⟩ := ih ls'.length hlt rest rfl
  refine ⟨_ :: fs, gs, rfl, ?_, hgs⟩
  rw [hline]
  exact Fields.cons hne htoken hws hfolds hfs

theorem exists_line_of_unlines {ls : List Text} {c : Char} {y after : Text} (hc : c ∉ crlfText)
    (hy : c ∉ y) (h : unlines crlfText ls ++ crlfText = y ++ c :: after) :
  ∃ mid p z later, ls = mid ++ (p ++ c :: z) :: later ∧ y = unlines crlfText mid ++ p
  := by
  induction ls generalizing y with
  | nil =>
    exfalso
    apply hc
    have heq : crlfText = y ++ c :: after := h
    rw [heq]
    simp
  | cons l ls ih =>
    by_cases hl : c ∈ l
    · obtain ⟨p, z, rfl, hp⟩ := eq_append_cons_of_mem hl
      have hcut : p ++ c :: (z ++ crlfText ++ unlines crlfText ls ++ crlfText)
          = y ++ c :: after := by
        rw [← h]
        simp
      obtain ⟨rfl, -⟩ := Lines.append_cons_inj hp hy hcut
      exact ⟨[], p, z, ls, rfl, rfl⟩
    · have hlead : c ∉ l ++ crlfText := by simp [hl, hc]
      have hcut : (l ++ crlfText) ++ (unlines crlfText ls ++ crlfText) = y ++ c :: after := by
        rw [← h]
        simp
      obtain ⟨y', rfl, hy'⟩ := Lines.exists_of_append_eq_append_cons hlead hcut
      obtain ⟨mid, p, z, later, rfl, rfl⟩ := ih (fun hmem => hy (mem_append_right _ hmem)) hy'
      exact ⟨l :: mid, p, z, later, rfl, by simp⟩

theorem getAll_append_fields_ne {fields fs : List (Text × Text)} (hh : h = addFields new fields)
    (hfs : fs ≠ []) :
  ∃ name, (addFields new (fs ++ h.fields)).getAll name ≠ h.getAll name
  := by
  obtain ⟨f, gs, rfl⟩ := exists_cons_of_ne_nil hfs
  use f.1
  have hvalues : valuesOf (f :: gs ++ h.fields) f.1
      = f.2 :: (valuesOf gs f.1 ++ valuesOf h.fields f.1) := by
    simp [valuesOf]
  rw [← getAll_addFields_fields hh, getAll_addFields, getAll_addFields, hvalues, if_neg (by simp)]
  have hnew : new.getAll f.1 = none := rfl
  rw [hnew]
  split
  · simp
  intro heq
  have hlen := congrArg List.length (Option.some.inj heq)
  simp only [Option.getD_none, nil_append, length_cons, length_append] at hlen
  omega

/-! ### Messages written and read again -/

theorem headLines_toBytes {m : SipMessage} {start : Text} (heq : unlines crlfText (start :: lines)
      = unlines crlfText (m.startLine.line :: m.headers.rows))
    (hlines : ∀ l ∈ start :: lines, IsLine l) :
  HeadLines m.toBytes 0 start lines m.body
  := by
  refine ⟨?_, hlines⟩
  rw [toBytes, headBytes_eq, heq]
  rfl

theorem row_ne_nil (name value : Text) :
  row name value ≠ []
  := by
  simp [row]

theorem line_ne_nil (line : StartLine) :
  line.line ≠ []
  := by
  cases line <;> simp [StartLine.line]

theorem isLine_rows (hh : ∀ t ∈ h.texts, OneLine t) :
  ∀ l ∈ h.rows, IsLine l
  := by
  intro l hl
  obtain ⟨hcr, hlf⟩ := SipHeaders.oneLine_rows hh l hl
  obtain ⟨e, -, hl⟩ := mem_flatMap.mp hl
  obtain ⟨value, -, rfl⟩ := mem_map.mp hl
  exact ⟨row_ne_nil _ _, hcr, hlf⟩

section

variable [StdText]

/-- Reading what is written for a message gives a message with the same method or status,
Request-URI, body and values, which is written in the same way. -/
def RoundTrips (m : SipMessage) : Prop :=
  ∃ m', parseSipMessageBytes m.toBytes = .ok m' ∧ m'.method = m.method
    ∧ m'.statusCode = m.statusCode ∧ m'.requestUri = m.requestUri ∧ m'.body = m.body
    ∧ (∀ name, m'.headers.getAll name = m.headers.getAll name) ∧ m'.toBytes = m.toBytes

variable {m : SipMessage}

theorem roundTrips_iff_of_oneLine {fields : List (Text × Text)} {len : ℕ}
    (hstart : IsStartLine m.startLine) (htexts : ∀ t ∈ m.texts, OneLine t)
    (hheaders : m.headers = addFields new fields) (hfields : ∀ f ∈ fields, IsField f)
    (hlen : BodyLength m.headers len) (hbody : m.body.length = len) :
  RoundTrips m ↔ ∀ f ∈ m.headers.fields, f.1 ≠ []
  := by
  have hline := StartLine.oneLine_line fun t ht => htexts t (mem_append_left _ ht)
  have hlines : ∀ l ∈ m.startLine.line :: m.headers.rows, IsLine l := by
    rw [forall_mem_cons]
    exact ⟨⟨line_ne_nil _, hline.1, hline.2⟩,
      isLine_rows fun t ht => htexts t (mem_append_right _ ht)⟩
  have hb := headLines_toBytes rfl hlines
  constructor
  · rintro ⟨m', hparse, -⟩
    obtain ⟨-, ⟨gs, hgs, -⟩, -⟩ := hb.parseSipMessageBytes_eq_ok.mp hparse
    rw [SipHeaders.rows_eq] at hgs
    apply (hgs.of_rows (isField_fields hheaders hfields)).2
  intro hnames
  have hparse : parseSipMessageBytes m.toBytes
      = .ok ⟨m.startLine, addFields new m.headers.fields, m.body⟩ := by
    rw [hb.parseSipMessageBytes_eq_ok]
    refine ⟨⟨unlines crlfText m.headers.rows ++ crlfText, ?_⟩,
      ⟨m.headers.fields, ?_, rfl⟩, len, ?_, hbody.ge, ?_⟩
    · rw [Lines.unlines_cons, ← StartLine.display_eq, append_assoc]
      apply parseStartLine_display hstart
    · rw [SipHeaders.rows_eq]
      apply fields_rows (isField_fields hheaders hfields) hnames
    · rwa [BodyLength, SipHeaders.get, getAll_addFields_fields hheaders]
    · rw [← hbody, take_length]
  refine ⟨_, hparse, rfl, rfl, rfl, rfl, getAll_addFields_fields hheaders, ?_⟩
  rw [toBytes, headBytes_eq, toBytes, headBytes_eq,
    rows_addFields_fields hheaders]

theorem CrossesLine.exists_lines {line : RequestLine} (hline : IsRequestLine line)
    (hlines : ∀ l ∈ lines, OneLine l)
    (h : CrossesLine line.requestUri (unlines crlfText lines ++ crlfText)) :
  ∃ first mid last, (∀ l ∈ mid, l ∈ lines) ∧ first ≠ [] ∧ OneLine first ∧ last ≠ [] ∧ OneLine last
    ∧ unlines crlfText (first :: mid ++ [last]) = (StartLine.request line).line ++ crlfText
  := by
  obtain ⟨userText, portText, headerText, rest, x, y, after, htext, hhost, hx, hy, hmore⟩ := h
  obtain ⟨mid, p, z, later, rfl, rfl⟩ := exists_line_of_unlines (by decide) hy hmore
  obtain ⟨hscheme, huser, hport, hparams, hheaders⟩ :=
    SipUri.oneLine_parts hline.requestUri.oneLine_otherTexts
  have hp : OneLine p := (oneLine_append.mp (hlines (p ++ ']' :: z) (by simp))).1
  refine ⟨line.method.asStr ++ ' ' :: (line.requestUri.scheme.asStr
      ++ ':' :: (line.requestUri.userDisplay ++ '[' :: x)), mid,
    p ++ ']' :: (line.requestUri.portDisplay ++ (displayParams line.requestUri.params
      ++ (line.requestUri.headersDisplay ++ ' ' :: line.version.display))),
    fun l hl => by simp [hl], by simp, ?_, by simp, ?_, ?_⟩
  · simp [hline.oneLine_method, hscheme, huser, hx]
  · simp [hp, hport, hparams, hheaders, Version.oneLine_display]
  · have hdisplay := display_sipUri htext.scheme htext.host (' ' :: line.version.display)
    rw [hhost] at hdisplay
    simp only [StartLine.line, append_assoc, cons_append, hdisplay]
    simp

theorem not_roundTrips_of_crossesLine {line : RequestLine} {fields : List (Text × Text)}
    (hm : m.startLine = .request line) (hline : IsRequestLine line) (hlines : ∀ l ∈ lines, IsLine l)
    (hfields : Fields lines fields) (hheaders : m.headers = addFields new fields)
    (h : CrossesLine line.requestUri (unlines crlfText lines ++ crlfText)) :
  ¬ RoundTrips m
  := by
  rintro ⟨m', hparse, -, -, -, -, hgetAll, -⟩
  have hone : ∀ l ∈ lines, OneLine l := fun l hl => ⟨(hlines l hl).cr, (hlines l hl).lf⟩
  obtain ⟨first, mid, last, hmid, hfirst, hfirstOne, hlast, hlastOne, hunlines⟩ :=
    h.exists_lines hline hone
  have htexts : ∀ t ∈ m.headers.texts, OneLine t := by
    rw [hheaders]
    exact oneLine_addFields (hfields.oneLine hone)
  have hb : HeadLines m.toBytes 0 first (mid ++ [last] ++ m.headers.rows) m.body := by
    apply headLines_toBytes
    · rw [hm, ← cons_append, ← cons_append, Lines.unlines_append, hunlines, Lines.unlines_cons]
    · simp only [forall_mem_cons, forall_mem_append]
      exact ⟨⟨hfirst, hfirstOne.1, hfirstOne.2⟩, ⟨fun l hl => hlines l (hmid l hl),
        ⟨hlast, hlastOne.1, hlastOne.2⟩, by simp⟩, isLine_rows htexts⟩
  obtain ⟨-, ⟨gs, hgs, hheaders'⟩, -⟩ := hb.parseSipMessageBytes_eq_ok.mp hparse
  have hfs := isField_fields hheaders hfields.isField
  -- The lines in front of the rows are read as at least one field more.
  obtain ⟨fs, ks, rfl, hfs', hks⟩ := hgs.append_inv (by
    rw [SipHeaders.rows_eq]
    intro l hl
    obtain ⟨f, hf, rfl⟩ := mem_map.mp (mem_of_mem_head? hl)
    apply isFold_row (hfs f hf))
  rw [SipHeaders.rows_eq] at hks
  obtain ⟨rfl, -⟩ := hks.of_rows hfs
  have hne : fs ≠ [] := by
    rintro rfl
    simpa using hfs'.eq_nil
  obtain ⟨name, hname⟩ := getAll_append_fields_ne hheaders hne
  apply hname
  rw [← hheaders']
  apply hgetAll

/-- A message that was read is written and read again as the same message, and written the
same once more, exactly if its first line closes the bracket of the host and no header line
has an empty name. -/
theorem roundTrips_iff_of_parse {b : Bytes} {m : SipMessage} (h : parseSipMessageBytes b = .ok m) :
  RoundTrips m
    ↔ bracketLeftOpen ((blockLines b).headD []) = false
      ∧ ∀ l ∈ (blockLines b).tail, namesNothing l = false
  := by
  obtain ⟨n, len, hblock, -⟩ := parseSipMessageBytes_eq_ok.mp h
  obtain ⟨k, start, lines, rest, hb⟩ := exists_headLines hblock
  obtain ⟨⟨r, hread⟩, ⟨fields, hfields, hheaders⟩, len, hlen, hle, hbody⟩ :=
    hb.parseSipMessageBytes_eq_ok.mp h
  have hlines : ∀ l ∈ lines, IsLine l := fun l hl => hb.isLine l (mem_cons_of_mem _ hl)
  have hone : ∀ l ∈ lines, OneLine l := fun l hl => ⟨(hlines l hl).cr, (hlines l hl).lf⟩
  have hstartLine : IsLine start := hb.isLine start mem_cons_self
  rw [hb.blockLines_eq, headD_cons, tail_cons]
  rw [Lines.unlines_cons, append_assoc] at hread
  have hstart := isStartLine_of_parseStartLine hstartLine.cr hread
  have hiff := oneLine_startLine_iff ⟨hstartLine.cr, hstartLine.lf⟩ hread
  by_cases hopen : bracketLeftOpen start = true
  · have hnot : ¬ RoundTrips m := by
      rcases parseStartLine_eq_ok.mp hread with ⟨req, hm, hreq⟩ | ⟨resp, hm, hresp⟩
      · rcases requestLine_cases ⟨hstartLine.cr, hstartLine.lf⟩ hreq with ⟨hclosed, -⟩ | ⟨-, hcross⟩
        · rw [hopen] at hclosed
          cases hclosed
        · exact not_roundTrips_of_crossesLine hm (isRequestLine_of_parseRequestLine hreq) hlines
            hfields hheaders hcross
      · obtain ⟨-, -, lead, rfl⟩ := isStatusLine_of_parseStatusLine hstartLine.cr hresp
        simp [bracketLeftOpen] at hopen
    simp [hopen, hnot]
  · rw [Bool.not_eq_true] at hopen
    have htexts : ∀ t ∈ m.texts, OneLine t := by
      intro t ht
      rcases mem_append.mp ht with ht | ht
      · apply hiff.mpr hopen t ht
      · rw [hheaders] at ht
        exact oneLine_addFields (hfields.oneLine hone) t ht
    have hlength : m.body.length = len := by
      rw [hbody, length_take, Nat.min_eq_left hle]
    rw [roundTrips_iff_of_oneLine hstart htexts hheaders hfields.isField hlen hlength,
      name_ne_nil_fields hheaders, hfields.name_ne_nil_iff]
    simp [hopen]

end

/-- A message after a CRLF pair, with folded lines, a compact name, an upper-case name and
header fields out of the order they are written in. -/
def foldedRequest : Bytes :=
  Utf8.encode
    ("\r\nOPTIONS sip:u;p=1@[::1]:5060;lr SIP/2.0\r\nX-A: 1\r\n\t2\r\nl : 2\r\nVIA:  v\r\n\r\n"
      ++ "hiX").toList

def foldedRequestMessage : SipMessage :=
  ⟨.request ⟨.options, ⟨.sip, some ['u'], "[::1]".toList, some 5060, [("lr".toList, none)],
      some ⟨[], [(['p'], some ['1'])]⟩⟩, .sip20⟩,
    ((new.add "X-A".toList "1 2".toList).add ['l'] ['2']).add "VIA".toList ['v'],
    Utf8.encode "hi".toList⟩

theorem roundTrips_foldedRequestMessage :
  @RoundTrips StdText.ascii foldedRequestMessage
    ∧ foldedRequestMessage.toBytes = Utf8.encode
      ("OPTIONS sip:u;p=1@[::1]:5060;lr SIP/2.0\r\nVIA: v\r\nX-A: 1 2\r\nl: 2\r\n\r\n"
        ++ "hi").toList
  := by
  have hparse : @parseSipMessageBytes StdText.ascii foldedRequest = .ok foldedRequestMessage := by
    decide +kernel
  exact ⟨(@roundTrips_iff_of_parse StdText.ascii _ _ hparse).mpr (by decide +kernel),
    by decide +kernel⟩

/-- A request with a header field named by a form feed. -/
def formFeedName : Bytes :=
  Utf8.encode "OPTIONS sip:a SIP/2.0\r\n\x0c: v\r\n\r\n".toList

/-- What is written for a message can be refused, or read with another value in it. -/
theorem not_roundTrips_formFeedName_openBracket :
  (∃ m, @parseSipMessageBytes StdText.ascii formFeedName = .ok m
      ∧ m.toBytes = Utf8.encode "OPTIONS sip:a SIP/2.0\r\n: v\r\n\r\n".toList
      ∧ ¬ @RoundTrips StdText.ascii m)
    ∧ ∃ m, @parseSipMessageBytes StdText.ascii openBracket = .ok m
      ∧ m.toBytes = Utf8.encode
        "OPTIONS sip:[\r\nX: ] SIP/2.0\r\nX: ] SIP/2.0\r\n\r\n".toList
      ∧ ¬ @RoundTrips StdText.ascii m
  := by
  constructor
  · refine ⟨⟨.request ⟨.options, ⟨.sip, none, ['a'], none, [], none⟩, .sip20⟩,
      new.add [] ['v'], []⟩, by decide +kernel, by decide +kernel, ?_⟩
    rintro ⟨m', hparse, -⟩
    have hrefused : (@parseSipMessageBytes StdText.ascii (toBytes
        ⟨.request ⟨.options, ⟨.sip, none, ['a'], none, [], none⟩, .sip20⟩,
          new.add [] ['v'], []⟩)).isOk = false := by decide +kernel
    rw [hparse] at hrefused
    cases hrefused
  · refine ⟨⟨.request ⟨.options, ⟨.sip, none, "[\r\nX: ]".toList, none, [], none⟩, .sip20⟩,
      new.add ['X'] "] SIP/2.0".toList, []⟩, by decide +kernel, by decide +kernel, ?_⟩
    rintro ⟨m', hparse, -, -, -, -, hgetAll, -⟩
    have hread : @parseSipMessageBytes StdText.ascii (toBytes
        ⟨.request ⟨.options, ⟨.sip, none, "[\r\nX: ]".toList, none, [], none⟩, .sip20⟩,
          new.add ['X'] "] SIP/2.0".toList, []⟩)
        = .ok ⟨.request ⟨.options, ⟨.sip, none, "[\r\nX: ]".toList, none, [], none⟩, .sip20⟩,
          (new.add ['X'] "] SIP/2.0".toList).add ['X'] "] SIP/2.0".toList, []⟩ := by
      decide +kernel
    cases hparse.symm.trans hread
    have htwo := hgetAll ['X']
    revert htwo
    decide +kernel

end Siphon
