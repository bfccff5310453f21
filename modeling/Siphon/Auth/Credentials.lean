import Siphon.Auth.FieldSearch

/-!
# Credentials as written

Credentials are the word `Digest` and a list of parameters with distinct names.
-/

namespace Siphon.Auth

open List DigestField

/-! ### Writing credentials -/

def isTokenChar (c : Char) : Bool :=
  c.isAlphanum || "-.!%*_+`'~".toList.contains c

def isBlank (c : Char) : Bool :=
  c == ' ' || c == '\t'

inductive ParamValue where
  | token (value : Text) (nonempty : value ≠ []) (chars : ∀ c ∈ value, isTokenChar c = true)
  | quoted (value : Text) (closed : '"' ∉ value)

def ParamValue.content : ParamValue → Text
  | .token value _ _ => value
  | .quoted value _ => value

def ParamValue.text : ParamValue → Text
  | .token value _ _ => value
  | .quoted value _ => '"' :: (value ++ ['"'])

/-- A parameter, with the blanks around it. -/
structure DigestParam where
  lead : Text
  name : Text
  value : ParamValue
  trail : Text
  lead_blank : ∀ c ∈ lead, isBlank c = true
  name_ne_nil : name ≠ []
  name_token : ∀ c ∈ name, isTokenChar c = true
  trail_blank : ∀ c ∈ trail, isBlank c = true

def DigestParam.text (param : DigestParam) : Text :=
  param.lead ++ (param.name ++ '=' :: (param.value.text ++ param.trail))

/-- The parameters in front of one, each with its comma. -/
def preceding (params : List DigestParam) : Text :=
  params.flatMap fun param => param.text ++ [',']

/-- The parameters behind one, each with its comma. -/
def following (params : List DigestParam) : Text :=
  params.flatMap fun param => ',' :: param.text

def paramList : List DigestParam → Text
  | [] => []
  | param :: params => param.text ++ following params

/-- Parameters whose names differ in more than case. -/
structure Credentials where
  params : List DigestParam
  distinct : (params.map fun param => param.name.toAsciiLowercase).Nodup

variable (credentials : Credentials)

def Credentials.text : Text :=
  "Digest ".toList ++ paramList credentials.params

/-- The value of the parameter with the name of a field. -/
def Credentials.lookup (field : DigestField) : Option Text :=
  (credentials.params.find? fun param => param.name.toAsciiLowercase = field.name).map
    fun param => param.value.content

/-- What reading the fields of credentials should give. -/
def Credentials.fields [StdText] (credentials : Credentials) : Option DigestFields := do
  let username ← credentials.lookup .username
  let realm ← credentials.lookup .realm
  let nonce ← credentials.lookup .nonce
  let uri ← credentials.lookup .uri
  let response ← credentials.lookup .response
  return {
    username, realm, nonce, uri, response
    qop := credentials.lookup .qop
    cnonce := credentials.lookup .cnonce
    nc := credentials.lookup .nc
    algorithm := parseAlgorithm (credentials.lookup .algorithm) }

/-- A parameter that is taken for a field it is not: its name is longer and ends in the name of the
field, or the name of the field and `=` occur in its quoted value. -/
inductive Decoy (field : DigestField) (param : DigestParam) : Prop where
  | longer {front name : Text} (nonempty : front ≠ []) (ends : param.name = front ++ name)
      (named : name.toAsciiLowercase = field.name) (taken : field.accepts front = true)
  | inside {value front middle back : Text} {closed : '"' ∉ value}
      (quoted : param.value = .quoted value closed) (occurs : value = front ++ middle ++ back)
      (named : middle.toAsciiLowercase = field.needle) (taken : field.accepts front = true)

/-- No parameter is a decoy before the one of the field. -/
def Credentials.Clear (field : DigestField) : Prop :=
  ∀ param ∈ credentials.params.takeWhile fun param => param.name.toAsciiLowercase ≠ field.name,
    ¬ Decoy field param

/-! ### Where the name of a field occurs -/

/-- An occurrence of the name of a field, in any case, that is taken for it. -/
structure Occurrence (field : DigestField) (t front middle back : Text) : Prop where
  split : t = front ++ middle ++ back
  named : middle.toAsciiLowercase = field.needle
  taken : field.accepts front = true

variable {back : Text} (field : DigestField)

theorem accepts_append_of_ne_nil (front : Text) (h : back ≠ []) :
  field.accepts (front ++ back) = field.accepts back
  := by
  cases field <;>
    simp only [accepts, unpreceded, getLast?_append_of_ne_nil front h]

variable {c : Char}

theorem accepts_append_singleton (front : Text) (h : c.isAlphanum = false) :
  field.accepts (front ++ [c]) = true
  := by
  cases field <;> simp [accepts, unpreceded, h]

variable {field : DigestField} {middle : Text}

theorem exists_of_named (h : middle.toAsciiLowercase = field.needle) :
  ∃ name, middle = name ++ ['='] ∧ name.toAsciiLowercase = field.name ∧ '=' ∉ name
  := by
  rw [needle, Text.toAsciiLowercase, map_eq_append_iff] at h
  obtain ⟨name, last, rfl, hname, hlast⟩ := h
  obtain ⟨c, rest, rfl, hc, hrest⟩ := map_eq_cons_iff.mp hlast
  obtain rfl := map_eq_nil_iff.mp hrest
  have hmem : '=' ∈ [c] := by
    refine Text.mem_of_mem_toAsciiLowercase (by decide) ?_
    simp [Text.toAsciiLowercase, hc]
  refine ⟨name, by rw [mem_singleton.mp hmem], hname, ?_⟩
  intro hequals
  have hlower : '=' ∈ field.name := by
    rw [← hname]
    exact mem_map.mpr ⟨'=', hequals, by decide⟩
  revert hlower
  cases field <;> decide

theorem not_mem_of_named (h : middle.toAsciiLowercase = field.needle)
    (hc : c ∈ [' ', '\t', ',', '"']) :
  c ∉ middle
  := by
  intro hmem
  have hlower : c.toLower ∈ field.needle := by
    rw [← h]
    exact mem_map.mpr ⟨c, hmem, rfl⟩
  have htable : ∀ field : DigestField, ∀ c ∈ [' ', '\t', ',', '"'], c.toLower ∉ field.needle := by
    intro field
    simp only [forall_mem_cons, not_mem_nil, IsEmpty.forall_iff, implies_true, and_true]
    cases field <;> decide
  exact htable field c hc hlower

theorem isBlank_iff :
  isBlank c = true ↔ c = ' ' ∨ c = '\t'
  := by
  simp [isBlank]

theorem not_mem_of_isBlank (h : middle.toAsciiLowercase = field.needle) (hc : isBlank c = true) :
  c ∉ middle
  := by
  refine not_mem_of_named h ?_
  rcases isBlank_iff.mp hc with rfl | rfl <;> simp

variable {t : Text}

theorem not_mem_of_token (ht : ∀ c ∈ t, isTokenChar c = true) (hc : isTokenChar c = false) :
  c ∉ t
  := by
  intro hmem
  rw [ht c hmem] at hc
  cases hc

variable {front : Text}

/-- In a parameter the name of a field is at the end of its name or inside its quoted value. -/
theorem occurrence_in_param {param : DigestParam} (h : param.text = front ++ middle ++ back)
    (hnamed : middle.toAsciiLowercase = field.needle) :
  (∃ a name, front = param.lead ++ a ∧ param.name = a ++ name
      ∧ name.toAsciiLowercase = field.name ∧ back = param.value.text ++ param.trail)
    ∨ ∃ value closed a b, param.value = .quoted value closed ∧ value = a ++ middle ++ b
      ∧ front = param.lead ++ (param.name ++ '=' :: '"' :: a)
  := by
  obtain ⟨name, rfl, hname, hequals⟩ := exists_of_named hnamed
  obtain ⟨a, rfl, hrest⟩ := Slice.occurrence_append_left (by simp)
    (fun c hc => not_mem_of_isBlank hnamed (param.lead_blank c hc)) h
  have htoken : '=' ∉ param.name := not_mem_of_token param.name_token (by decide)
  by_cases ha : '=' ∈ a
  · -- The occurrence is behind the `=` of the parameter, so in its value.
    obtain ⟨a1, a2, rfl, ha1⟩ := eq_append_cons_of_mem ha
    have hsplit : param.name ++ '=' :: (param.value.text ++ param.trail)
        = a1 ++ '=' :: (a2 ++ (name ++ ['=']) ++ back) := by
      simpa using hrest
    obtain ⟨rfl, hvalue⟩ := Lines.append_cons_inj htoken ha1 hsplit
    have htrail : '=' ∉ param.trail := by
      intro hmem
      have := param.trail_blank _ hmem
      revert this
      decide
    cases hparam : param.value with
    | token value nonempty chars =>
      have hmem : '=' ∈ param.value.text ++ param.trail := by
        rw [hvalue]
        simp
      rw [hparam, mem_append] at hmem
      rcases hmem with hmem | hmem
      · exact absurd hmem (not_mem_of_token chars (by decide))
      · exact absurd hmem htrail
    | quoted value closed =>
      rw [hparam] at hvalue
      have hquote : '"' ∉ name ++ ['='] := not_mem_of_named hnamed (by simp)
      have hvalue' : [] ++ '"' :: (value ++ '"' :: param.trail)
          = a2 ++ (name ++ ['=']) ++ back := by
        simpa [ParamValue.text] using hvalue
      rcases Slice.occurrence_append_cons hquote hvalue' with ⟨b', hnil, -⟩ | ⟨a3, hin, rfl⟩
      · simp at hnil
      · rcases Slice.occurrence_append_cons hquote hin with ⟨b', hin, -⟩ | ⟨a4, hin, -⟩
        · exact .inr ⟨value, closed, a3, b', rfl, hin, rfl⟩
        · exact absurd (by rw [hin]; simp) htrail
  · -- The `=` of the occurrence is the one of the parameter.
    have hsplit : param.name ++ '=' :: (param.value.text ++ param.trail)
        = (a ++ name) ++ '=' :: back := by
      simpa using hrest
    have hfront : '=' ∉ a ++ name := by
      rw [mem_append, not_or]
      exact ⟨ha, hequals⟩
    obtain ⟨hparam, hback⟩ := Lines.append_cons_inj htoken hfront hsplit
    exact .inl ⟨a, name, rfl, hparam, hname, hback.symm⟩

theorem paramList_append (before after : List DigestParam) (param : DigestParam) :
  paramList (before ++ param :: after) = preceding before ++ (param.text ++ following after)
  := by
  induction before with
  | nil => rfl
  | cons first before ih =>
  rw [cons_append, paramList, preceding, flatMap_cons, ← preceding, append_assoc, ← ih]
  cases before <;> simp [paramList, following]

variable {before after : List DigestParam} {credentials : Credentials}

theorem text_eq_append {own : DigestParam} (hparams : credentials.params = before ++ own :: after) :
  credentials.text = "Digest ".toList ++ (preceding before ++ own.lead) ++ (own.name ++ ['='])
    ++ (own.value.text ++ (own.trail ++ following after))
  := by
  have hlist : paramList credentials.params = (preceding before ++ own.lead)
      ++ ((own.name ++ ['=']) ++ (own.value.text ++ (own.trail ++ following after))) := by
    rw [hparams, paramList_append, DigestParam.text]
    simp
  unfold Credentials.text
  generalize "Digest ".toList = word
  rw [hlist]
  simp only [append_assoc]

theorem occurrence_in_paramList {params : List DigestParam}
    (h : paramList params = front ++ middle ++ back) (hmiddle : middle ≠ [])
    (hcomma : ',' ∉ middle) :
  ∃ before param after a b, params = before ++ param :: after ∧ front = preceding before ++ a
    ∧ param.text = a ++ middle ++ b ∧ back = b ++ following after
  := by
  induction params generalizing front with
  | nil => simp [paramList, hmiddle] at h
  | cons first params ih =>
  cases params with
  | nil =>
    refine ⟨[], first, [], front, back, rfl, rfl, ?_, (append_nil _).symm⟩
    simpa [paramList, following] using h
  | cons second params =>
    have hsplit : first.text ++ ',' :: paramList (second :: params)
        = front ++ middle ++ back := by
      simpa [paramList, following] using h
    rcases Slice.occurrence_append_cons hcomma hsplit with ⟨b, hin, rfl⟩ | ⟨a, hin, rfl⟩
    · refine ⟨[], first, second :: params, front, b, rfl, rfl, hin, ?_⟩
      simp [paramList, following]
    obtain ⟨before, param, after, a', b, hparams, rfl, htext, hback⟩ := ih hin
    refine ⟨first :: before, param, after, a', b, ?_, ?_, htext, hback⟩
    · rw [hparams, cons_append]
    · simp [preceding]

theorem accepts_nil (field : DigestField) :
  field.accepts [] = true
  := by
  cases field <;> rfl

/-- An occurrence that is taken for a field is the name of its parameter, or in a decoy. -/
theorem occurrence_in_credentials (h : Occurrence field credentials.text front middle back) :
  ∃ before param after rest, credentials.params = before ++ param :: after
    ∧ front = "Digest ".toList ++ (preceding before ++ (param.lead ++ rest))
    ∧ (rest = [] ∧ param.name.toAsciiLowercase = field.name
        ∧ back = param.value.text ++ (param.trail ++ following after)
      ∨ Decoy field param)
  := by
  have hmiddle : middle ≠ [] := by
    rintro rfl
    have := h.named
    simp [needle, Text.toAsciiLowercase] at this
  have hsplit : "Digest".toList ++ ' ' :: paramList credentials.params = front ++ middle ++ back :=
    h.split
  rcases Slice.occurrence_append_cons (not_mem_of_named h.named (by simp)) hsplit with
    ⟨b, hin, -⟩ | ⟨a, hin, rfl⟩
  · obtain ⟨name, rfl, -, -⟩ := exists_of_named h.named
    have hmem : '=' ∈ "Digest".toList := by
      rw [hin]
      simp
    exact absurd hmem (by decide)
  obtain ⟨before, param, after, a, b, hparams, rfl, htext, rfl⟩ :=
    occurrence_in_paramList hin hmiddle (not_mem_of_named h.named (by simp))
  have htaken := h.taken
  rcases occurrence_in_param htext h.named with
    ⟨a, name, rfl, hname, hnamed, rfl⟩ | ⟨value, closed, a, b, hvalue, hinside, rfl⟩
  · refine ⟨before, param, after, a, hparams, rfl, ?_⟩
    cases a with
    | nil =>
      refine .inl ⟨rfl, ?_, by simp⟩
      rw [hname, nil_append, hnamed]
    | cons c a =>
      refine .inr (.longer (cons_ne_nil c a) hname hnamed ?_)
      rw [append_cons, ← append_assoc, ← append_assoc,
        accepts_append_of_ne_nil field _ (cons_ne_nil c a)] at htaken
      exact htaken
  · refine ⟨before, param, after, param.name ++ '=' :: '"' :: a, hparams, rfl, .inr ?_⟩
    refine .inside hvalue hinside h.named ?_
    cases a with
    | nil => apply accepts_nil
    | cons c a =>
    have hends : "Digest".toList ++ ' ' :: (preceding before
        ++ (param.lead ++ (param.name ++ '=' :: '"' :: c :: a)))
        = ("Digest".toList ++ ' ' :: (preceding before
          ++ (param.lead ++ (param.name ++ ['=', '"'])))) ++ c :: a := by
      simp
    rw [hends, accepts_append_of_ne_nil field _ (cons_ne_nil c a)] at htaken
    exact htaken

theorem accepts_own (field : DigestField) (before : List DigestParam) {lead : Text}
    (hlead : ∀ c ∈ lead, isBlank c = true) :
  field.accepts ("Digest ".toList ++ (preceding before ++ lead)) = true
  := by
  rcases eq_nil_or_concat lead with rfl | ⟨front, c, rfl⟩
  · rcases eq_nil_or_concat before with rfl | ⟨front, last, rfl⟩
    · exact accepts_append_singleton field "Digest".toList (by decide)
    have hends : "Digest ".toList ++ (preceding (front.concat last) ++ [])
        = ("Digest ".toList ++ preceding front ++ last.text) ++ [','] := by
      simp [preceding]
    rw [hends]
    exact accepts_append_singleton field _ (by decide)
  · rw [concat_eq_append, ← append_assoc, ← append_assoc]
    refine accepts_append_singleton field _ ?_
    rcases isBlank_iff.mp (hlead c (by simp)) with rfl | rfl <;> decide

theorem isWhitespace_of_isTokenChar (h : isTokenChar c = true) :
  Text.isWhitespace c = false
  := by
  have hlt : c.toNat < 128 := by
    by_contra hge
    have halnum := agree_isAsciiAlphanumericByte.char c (by omega)
    rw [isTokenChar, halnum, Bool.false_or, contains_iff_mem] at h
    have htable : ("-.!%*_+`'~".toList.all fun c => decide (c.toNat < 128)) = true := by decide
    exact hge (of_decide_eq_true (all_eq_true.mp htable c h))
  have htable : ∀ n < 128, isTokenChar (Char.ofNat n) = true →
      Text.isWhitespace (Char.ofNat n) = false := by decide +kernel
  have := htable c.toNat hlt
  rw [Char.ofNat_toNat] at this
  exact this h

theorem trim_token {value trail : Text} (hvalue : ∀ c ∈ value, isTokenChar c = true)
    (htrail : ∀ c ∈ trail, isBlank c = true) :
  Text.trim (value ++ trail) = value
  := by
  have hblank : ∀ c ∈ trail, Text.isWhitespace c = true := by
    intro c hc
    rcases isBlank_iff.mp (htrail c hc) with rfl | rfl <;> decide
  rw [Text.trim, Slice.trimMatches_append_right hblank]
  apply Slice.trimMatches_eq_self
  · exact fun c hc => isWhitespace_of_isTokenChar (hvalue c (mem_of_mem_head? hc))
  · exact fun c hc => isWhitespace_of_isTokenChar (hvalue c (mem_of_mem_getLast? hc))

theorem denotes_content (param : DigestParam) (after : List DigestParam) :
  Denotes (param.value.text ++ (param.trail ++ following after)) (some param.value.content)
  := by
  cases hvalue : param.value with
  | quoted value closed =>
    have htext : (ParamValue.quoted value closed).text ++ (param.trail ++ following after)
        = '"' :: (value ++ '"' :: (param.trail ++ following after)) := by
      simp [ParamValue.text]
    rw [htext]
    exact .quoted closed
  | token value nonempty chars =>
    have hcomma : ∀ c ∈ value ++ param.trail, (c ≠ ',') = true := by
      intro c hc
      simp only [eq_iff_iff, iff_true]
      rintro rfl
      rcases mem_append.mp hc with hc | hc
      · exact not_mem_of_token chars (by decide) hc
      · exact absurd (param.trail_blank _ hc) (by decide)
    have hspan : ((value ++ param.trail) ++ following after).takeWhile (· ≠ ',')
        = value ++ param.trail := by
      refine (Slice.takeWhile_dropWhile_append ?_ ?_).1
      · simpa using hcomma
      intro c hc
      cases after with
      | nil => cases hc
      | cons next after =>
      simp only [following, flatMap_cons, cons_append, head?_cons,
        Option.mem_def, Option.some.injEq] at hc
      simp [← hc]
    have hbare := @Denotes.bare (value ++ (param.trail ++ following after)) ?_
    · rw [← append_assoc, hspan, trim_token chars param.trail_blank] at hbare
      rwa [ParamValue.text, ParamValue.content, ← append_assoc]
    cases value with
    | nil => exact absurd rfl nonempty
    | cons c value =>
    intro hhead
    obtain rfl : c = '"' := by simpa using hhead
    exact absurd (chars _ mem_cons_self) (by decide)

/-! ### Occurrences in clear credentials -/

section

variable {credentials : Credentials} {field : DigestField}

theorem Credentials.Clear.not_occurrence (hclear : credentials.Clear field)
    (hfind : ∀ param ∈ credentials.params, param.name.toAsciiLowercase ≠ field.name)
    (front middle back : Text) :
  ¬ Occurrence field credentials.text front middle back
  := by
  intro hoccurs
  obtain ⟨before, param, after, rest, hparams, -, hcases⟩ := occurrence_in_credentials hoccurs
  have hmem : param ∈ credentials.params := by simp [hparams]
  rcases hcases with ⟨-, hname, -⟩ | hdecoy
  · exact hfind param hmem hname
  · refine hclear param ?_ hdecoy
    rwa [takeWhile_eq_self_iff.mpr fun p hp => by simpa using hfind p hp]

theorem Credentials.Clear.first_occurrence (hclear : credentials.Clear field) {own : DigestParam}
    (hparams : credentials.params = before ++ own :: after)
    (hbefore : ∀ param ∈ before, param.name.toAsciiLowercase ≠ field.name)
    (hown : own.name.toAsciiLowercase = field.name)
    (hoccurs : Occurrence field credentials.text front middle back) :
  ("Digest ".toList ++ (preceding before ++ own.lead)).length ≤ front.length
  := by
  obtain ⟨before', param, after', rest, hparams', rfl, hcases⟩ := occurrence_in_credentials hoccurs
  rcases append_eq_append_iff.mp (hparams'.symm.trans hparams) with
    ⟨z, rfl, hz⟩ | ⟨z, rfl, hz⟩
  · cases z with
    | nil =>
      obtain ⟨rfl, -⟩ := cons.inj hz
      simp
    | cons first z =>
      obtain ⟨rfl, -⟩ := cons.inj hz
      have hmem : param ∈ before' ++ param :: z := by simp
      rcases hcases with ⟨-, hname, -⟩ | hdecoy
      · exact absurd hname (hbefore param hmem)
      · refine absurd hdecoy (hclear param ?_)
        rw [hparams, takeWhile_append_of_pos fun p hp => by simpa using hbefore p hp]
        exact mem_append_left _ hmem
  · cases z with
    | nil =>
      obtain ⟨rfl, -⟩ := cons.inj hz
      simp
    | cons first z =>
      obtain ⟨rfl, -⟩ := cons.inj hz
      simp only [preceding, DigestParam.text, flatMap_append, flatMap_cons, length_append]
      omega

end

/-! ### The lower-case copy of an aligned value -/

theorem utf8Size_eq_one_iff :
  c.utf8Size = 1 ↔ c.toNat < 128
  := by
  rw [Char.utf8Size_eq_one_iff, UInt32.le_iff_toNat_le]
  have : c.toNat = c.val.toNat := rfl
  have : (127 : UInt32).toNat = 127 := rfl
  omega

theorem Lowers.lt_iff {d : Char} (h : Lowers c d) :
  d.toNat < 128 ↔ c.toNat < 128
  := by
  rw [← utf8Size_eq_one_iff, ← utf8Size_eq_one_iff, h.1]

theorem Lowers.isAlphanum {d : Char} (h : Lowers c d) :
  d.isAlphanum = c.isAlphanum
  := by
  by_cases hc : c.toNat < 128
  · have htable : ∀ n < 128, (Char.ofNat n).toLower.isAlphanum = (Char.ofNat n).isAlphanum := by
      decide
    have := htable c.toNat hc
    rwa [Char.ofNat_toNat, ← h.2 hc] at this
  · have hd : ¬ d.toNat < 128 := fun hlt => hc (h.lt_iff.mp hlt)
    rw [agree_isAsciiAlphanumericByte.char c (by omega),
      agree_isAsciiAlphanumericByte.char d (by omega)]

variable {s : Text}

theorem forall_lt_iff (h : List.Forall₂ Lowers s t) :
  (∀ d ∈ t, d.toNat < 128) ↔ ∀ c ∈ s, c.toNat < 128
  := by
  induction h with
  | nil => simp
  | cons hhead _ ih => rw [forall_mem_cons, forall_mem_cons, hhead.lt_iff, ih]

theorem eq_toAsciiLowercase (h : List.Forall₂ Lowers s t) (hs : ∀ c ∈ s, c.toNat < 128) :
  t = s.toAsciiLowercase
  := by
  induction h with
  | nil => rfl
  | cons hhead _ ih =>
  rw [forall_mem_cons] at hs
  rw [hhead.2 hs.1, ih hs.2]
  rfl

theorem needle_ascii (field : DigestField) :
  ∀ c ∈ field.needle, c.toNat < 128
  := by
  have htable : (field.needle.all fun c => decide (c.toNat < 128)) = true := by
    cases field <;> decide
  simpa only [all_eq_true, decide_eq_true_iff] using htable

theorem forall_lt_of_named (h : s.toAsciiLowercase = field.needle) :
  ∀ c ∈ s, c.toNat < 128
  := by
  intro c hc
  by_contra hge
  have hmem : c.toLower ∈ field.needle := by
    rw [← h]
    exact mem_map.mpr ⟨c, hc, rfl⟩
  have hlt := needle_ascii field _ hmem
  rw [Text.toLower_of_le (by omega)] at hlt
  exact hge hlt

theorem eq_needle_iff (h : List.Forall₂ Lowers s t) :
  t = field.needle ↔ s.toAsciiLowercase = field.needle
  := by
  constructor
  · rintro rfl
    exact (eq_toAsciiLowercase h ((forall_lt_iff h).mp (needle_ascii field))).symm
  · intro hs
    rw [eq_toAsciiLowercase h (forall_lt_of_named hs), hs]

theorem accepts_eq (h : List.Forall₂ Lowers s t) :
  field.accepts t = field.accepts s
  := by
  have hlast : t.getLast?.any Char.isAlphanum = s.getLast?.any Char.isAlphanum := by
    rw [← head?_reverse, ← head?_reverse]
    have hreverse := forall₂_reverse_iff.mpr h
    generalize s.reverse = s, t.reverse = t at hreverse
    cases hreverse with
    | nil => rfl
    | cons hhead _ => simp [hhead.isAlphanum]
  cases field <;> simp only [accepts, unpreceded, hlast]

section

variable [StdText] {authValue : Text} {field : DigestField}

section

variable (h : Aligned authValue)
include h

theorem Aligned.of_occurrence (hoccurs : Occurrence field authValue front middle back) :
  ∃ before after, StdText.toLowercase authValue = before ++ field.needle ++ after
    ∧ List.Forall₂ Lowers front before ∧ List.Forall₂ Lowers middle field.needle
  := by
  have hsplit := hoccurs.split
  rw [Aligned] at h
  generalize StdText.toLowercase authValue = lower at h
  subst hsplit
  have hfront := forall₂_take front.length h
  have hrest := forall₂_drop front.length h
  rw [append_assoc, take_left] at hfront
  rw [append_assoc, drop_left] at hrest
  have hmiddle := forall₂_take middle.length hrest
  rw [take_left] at hmiddle
  have hneedle := (eq_needle_iff hmiddle).mpr hoccurs.named
  rw [hneedle] at hmiddle
  refine ⟨_, (lower.drop front.length).drop middle.length, ?_, hfront, hmiddle⟩
  rw [← hneedle, append_assoc, take_append_drop, take_append_drop]

theorem Aligned.to_occurrence {before after : Text}
    (hsplit : StdText.toLowercase authValue = before ++ field.needle ++ after)
    (haccepted : field.accepts before = true) :
  ∃ front middle back, Occurrence field authValue front middle back
    ∧ front.length = before.length
  := by
  rw [Aligned, hsplit, append_assoc] at h
  have hfront := forall₂_take_append _ _ _ h
  have hrest := forall₂_drop_append _ _ _ h
  have hmiddle := forall₂_take_append _ _ _ hrest
  refine ⟨authValue.take before.length, (authValue.drop before.length).take field.needle.length,
    (authValue.drop before.length).drop field.needle.length, ⟨?_, ?_, ?_⟩, hfront.length_eq⟩
  · rw [append_assoc, take_append_drop, take_append_drop]
  · exact (eq_needle_iff hmiddle).mp rfl
  · rw [← accepts_eq hfront]
    exact haccepted

theorem Aligned.reads_first (hoccurs : Occurrence field authValue front middle back)
    (hfirst : ∀ f m b, Occurrence field authValue f m b → front.length ≤ f.length)
    {value : Option Text} (hdenotes : Denotes back value) :
  Reads authValue field value
  := by
  obtain ⟨before, after, hsplit, hbefore, hneedle⟩ := h.of_occurrence hoccurs
  refine .found ⟨hsplit, ?_, ?_⟩ hoccurs.split ?_ hdenotes
  · rw [accepts_eq hbefore]
    exact hoccurs.taken
  · intro b a hother haccepted
    obtain ⟨f, m, y, hoccurs', hlen⟩ := h.to_occurrence hother haccepted
    rw [← hbefore.length_eq, ← hlen]
    exact hfirst f m y hoccurs'
  · rw [Utf8.len_append, Utf8.len_append, len_eq_of_lowers hbefore, len_eq_of_lowers hneedle]

theorem Aligned.reads_none
    (hnone : ∀ front middle back, ¬ Occurrence field authValue front middle back) :
  Reads authValue field none
  := by
  refine .absent ?_
  intro b a hsplit
  rw [← Bool.not_eq_true]
  intro haccepted
  obtain ⟨front, middle, back, hoccurs, -⟩ := h.to_occurrence hsplit haccepted
  exact hnone front middle back hoccurs

end

variable {credentials : Credentials}

theorem Credentials.Clear.reads (hclear : credentials.Clear field)
    (haligned : Aligned credentials.text) :
  Reads credentials.text field (credentials.lookup field)
  := by
  rw [Credentials.lookup]
  cases hfind : credentials.params.find? fun param => param.name.toAsciiLowercase = field.name with
  | none =>
    rw [find?_eq_none] at hfind
    exact haligned.reads_none
      (hclear.not_occurrence fun param hparam => by simpa using hfind param hparam)
  | some own =>
    obtain ⟨hown, before, after, hparams, hbefore⟩ := find?_eq_some_iff_append.mp hfind
    have hown' : own.name.toAsciiLowercase = field.name := by simpa using hown
    have hbefore' : ∀ param ∈ before, param.name.toAsciiLowercase ≠ field.name :=
      fun param hparam => by simpa using hbefore param hparam
    have hoccurs : Occurrence field credentials.text
        ("Digest ".toList ++ (preceding before ++ own.lead)) (own.name ++ ['='])
        (own.value.text ++ (own.trail ++ following after)) := by
      have hsplit := text_eq_append hparams
      refine ⟨hsplit, ?_, accepts_own field before own.lead_blank⟩
      · rw [Text.toAsciiLowercase, map_append, ← Text.toAsciiLowercase, hown']
        rfl
    exact haligned.reads_first hoccurs
      (fun f m b h => hclear.first_occurrence hparams hbefore' hown' h) (denotes_content own after)

def Credentials.Complete (credentials : Credentials) : Prop :=
  ∀ field ∈ nc.required, (credentials.lookup field).isSome

theorem parse_eq_fields
    (h : ∀ field : DigestField, field.read credentials.text = .ok (credentials.lookup field)) :
  DigestFields.parse credentials.text = .ok credentials.fields
  := by
  rw [parse_eq_read, Credentials.fields]
  simp only [h]
  generalize credentials.lookup = lookup
  cases lookup .username <;> cases lookup .realm <;> cases lookup .nonce <;>
    cases lookup .uri <;> cases lookup .response <;> rfl

/-- A field is read as written exactly if the first occurrence of its name that is taken for it is
followed by the value of its parameter, or it has no parameter and nothing is taken for it. -/
theorem credentials_read_iff (credentials : Credentials) :
  (∀ field : DigestField, field.read credentials.text = .ok (credentials.lookup field)
      ↔ Reads credentials.text field (credentials.lookup field))
    ∧ (credentials.Complete →
      ((∃ fields algorithm, credentials.fields = some fields
          ∧ DigestFields.parse credentials.text = .ok (some { fields with algorithm }))
        ↔ Cuttable credentials.text .algorithm ∧ ∀ field : DigestField, field ≠ .algorithm →
            Reads credentials.text field (credentials.lookup field)))
    ∧ (Aligned credentials.text → (∀ field, credentials.Clear field) →
      DigestFields.parse credentials.text = .ok credentials.fields)
  := by
  refine ⟨fun field => read_eq_ok_iff credentials.text, ?_, ?_⟩
  · intro hcomplete
    simp only [Credentials.Complete, required, forall_mem_cons,
      Option.isSome_iff_exists] at hcomplete
    obtain ⟨⟨username, husername⟩, ⟨realm, hrealm⟩, ⟨nonce, hnonce⟩, ⟨uri, huri⟩,
      ⟨response, hresponse⟩, -⟩ := hcomplete
    have hfields : credentials.fields = some {
        username, realm, nonce, uri, response
        qop := credentials.lookup .qop
        cnonce := credentials.lookup .cnonce
        nc := credentials.lookup .nc
        algorithm := parseAlgorithm (credentials.lookup .algorithm) } := by
      rw [Credentials.fields, husername, hrealm, hnonce, huri, hresponse]
      rfl
    simp only [← read_ok_iff, ← read_eq_ok_iff, hfields, parse_eq_some_iff]
    constructor
    · rintro ⟨fields, algorithm, ⟨⟩, value, halgorithm, -, h⟩
      obtain ⟨h1, h2, h3, h4, h5, h6, h7, h8⟩ := h
      refine ⟨⟨value, halgorithm⟩, ?_⟩
      intro field hne
      cases field with
      | algorithm => exact absurd rfl hne
      | username => rw [h1, husername]
      | realm => rw [h2, hrealm]
      | nonce => rw [h3, hnonce]
      | uri => rw [h4, huri]
      | response => rw [h5, hresponse]
      | qop => exact h6
      | cnonce => exact h7
      | nc => exact h8
    · rintro ⟨⟨value, halgorithm⟩, h⟩
      refine ⟨_, parseAlgorithm value, rfl, value, halgorithm, rfl, ?_⟩
      refine ⟨?_, ?_, ?_, ?_, ?_, h .qop (by decide), h .cnonce (by decide), h .nc (by decide)⟩
      · rw [h .username (by decide), husername]
      · rw [h .realm (by decide), hrealm]
      · rw [h .nonce (by decide), hnonce]
      · rw [h .uri (by decide), huri]
      · rw [h .response (by decide), hresponse]
  · intro haligned hclear
    exact parse_eq_fields fun field =>
      (read_eq_ok_iff credentials.text).mpr ((hclear field).reads haligned)

end

/-! ### A decoy -/

def quotedParam (name value : String) (hname : name.toList ≠ [])
    (htoken : ∀ c ∈ name.toList, isTokenChar c = true) (hclosed : '"' ∉ value.toList) :
    DigestParam where
  lead := []
  name := name.toList
  value := .quoted value.toList hclosed
  trail := []
  lead_blank := nofun
  name_ne_nil := hname
  name_token := htoken
  trail_blank := nofun

/-- Credentials of alice with another user name in the realm. -/
def realmCredentials : Credentials where
  params :=
    [quotedParam "realm" "username=mallory" (by decide) (all_eq_true.mp (by decide))
        (by decide),
      quotedParam "username" "alice" (by decide) (all_eq_true.mp (by decide)) (by decide),
      quotedParam "nonce" "n" (by decide) (all_eq_true.mp (by decide)) (by decide),
      quotedParam "uri" "sip:a" (by decide) (all_eq_true.mp (by decide)) (by decide),
      quotedParam "response" "r" (by decide) (all_eq_true.mp (by decide)) (by decide)]
  distinct := by decide

/-- The user name is read out of the realm. -/
theorem realmCredentials_read_mallory :
  realmCredentials.text
      = ("Digest realm=\"username=mallory\",username=\"alice\",nonce=\"n\",uri=\"sip:a\","
        ++ "response=\"r\"").toList
    ∧ realmCredentials.lookup .username = some "alice".toList
    ∧ (@DigestFields.parse StdText.ascii realmCredentials.text).map (Option.map (·.username))
      = .ok (some "mallory\"".toList)
  := by
  decide +kernel

end Siphon.Auth
