import Siphon.Library.Words
import Siphon.Sip.StartLine
import Siphon.Sip.WireForm

/-!
# Line breaks in a message

Where a CR or LF can get into a message that was read: only through a host in brackets that is not
closed on the first line.
-/

namespace Siphon

open List StartLine SipUri

open Lines (unlines)

/-! ### The lines of a block -/

/-- The lines in front of the first empty line, as text. -/
def blockLines (b : Bytes) : List Text :=
  let block := b.drop (leadingCrlfLen b)
  match findHeaderBoundary block with
  | none => []
  | some position =>
    let text := (Utf8.decode (block.take (position + 2))).getD []
    (text.splitOn '\n').dropLast.map fun l => l.filter (· ≠ '\r')

theorem splitOn_unlines {ls : List Text} (h : ∀ l ∈ ls, '\n' ∉ l) :
  (unlines crlfText ls).splitOn '\n' = ls.map (· ++ ['\r']) ++ [[]]
  := by
  induction ls with
  | nil => rfl
  | cons l ls ih =>
  have hl : '\n' ∉ l ++ ['\r'] := by simp [h l mem_cons_self]
  have hsplit : unlines crlfText (l :: ls) = (l ++ ['\r']) ++ '\n' :: unlines crlfText ls := by
    simp [crlfText]
  rw [hsplit, splitOn_append_cons_self_of_not_mem hl,
    ih fun k hk => h k (mem_cons_of_mem _ hk)]
  rfl

theorem HeadLines.blockLines_eq {b : Bytes} {k : ℕ} {start : Text} {lines : List Text}
    {rest : Bytes} (h : HeadLines b k start lines rest) :
  blockLines b = start :: lines
  := by
  have hlen := two_le_length start lines
  have htake : (Utf8.encode (unlines crlfText (start :: lines)) ++ crlf ++ rest).take
      ((Utf8.encode (unlines crlfText (start :: lines))).length - 2 + 2)
      = Utf8.encode (unlines crlfText (start :: lines)) := by
    rw [append_assoc, Nat.sub_add_cancel hlen, take_left]
  rw [blockLines, h.leadingCrlfLen_eq, h.drop_eq]
  rw [h.findHeaderBoundary_eq]
  dsimp only
  rw [htake, Utf8.decode_eq_some_iff.mpr rfl, Option.getD_some,
    splitOn_unlines fun l hl => (h.isLine l hl).lf, dropLast_concat, map_map]
  conv_rhs => rw [← map_id (start :: lines)]
  apply map_congr_left
  intro l hl
  have hcr := (h.isLine l hl).cr
  simp only [Function.comp_apply, filter_append, id_eq]
  rw [filter_eq_self.mpr]
  · simp
  intro c hc
  rw [decide_eq_true_eq]
  rintro rfl
  apply hcr hc

/-! ### Components -/

/-- A text without CR and LF. -/
def OneLine (t : Text) : Prop :=
  '\r' ∉ t ∧ '\n' ∉ t

instance (t : Text) : Decidable (OneLine t) :=
  inferInstanceAs (Decidable (_ ∧ _))

def paramTexts (ps : List Param) : List Text :=
  ps.flatMap fun p => p.1 :: p.2.toList

def SipUri.otherTexts (uri : SipUri) : List Text :=
  uri.scheme.asStr :: uri.user.toList
    ++ paramTexts (uri.userParams ++ uri.params ++ uri.headers)

/-- The texts a message stores in its start line. -/
def StartLine.texts : StartLine → List Text
  | .request line => line.method.asStr :: line.requestUri.host :: line.requestUri.otherTexts
  | .response line => [line.reasonPhrase]

/-- The texts of header fields: keys, names and values. -/
def SipHeaders.texts (h : SipHeaders) : List Text :=
  h.headers.entries.flatMap fun e => e.1 :: e.2.1 :: e.2.2

def SipMessage.texts (m : SipMessage) : List Text :=
  m.startLine.texts ++ m.headers.texts

/-- The number of lines the start line and the header fields are written in. -/
def SipMessage.lineCount (m : SipMessage) : ℕ :=
  m.headBytes.count 10

variable {t : Text}

theorem oneLine_of_forall {p : Char → Bool} (hcr : p '\r' = false) (hlf : p '\n' = false)
    (h : ∀ c ∈ t, p c = true) :
  OneLine t
  := by
  constructor
  · intro hc
    rw [h _ hc] at hcr
    cases hcr
  · intro hc
    rw [h _ hc] at hlf
    cases hlf

theorem OneLine.subset {s : Text} (ht : OneLine t) (h : ∀ c ∈ s, c ∈ t) :
  OneLine s
  := ⟨fun hc => ht.1 (h _ hc), fun hc => ht.2 (h _ hc)⟩

@[simp] theorem oneLine_append {s : Text} :
  OneLine (s ++ t) ↔ OneLine s ∧ OneLine t
  := by
  simp only [OneLine, mem_append]
  tauto

@[simp] theorem oneLine_cons {c : Char} :
  OneLine (c :: t) ↔ (c ≠ '\r' ∧ c ≠ '\n') ∧ OneLine t
  := by
  simp only [OneLine, mem_cons, ne_eq, @eq_comm _ '\r' c, @eq_comm _ '\n' c]
  tauto

theorem oneLine_flatMap {α : Type} {l : List α} {f : α → Text} :
  OneLine (l.flatMap f) ↔ ∀ a ∈ l, OneLine (f a)
  := by
  simp only [OneLine, mem_flatMap, not_exists, not_and]
  exact ⟨fun h a ha => ⟨h.1 a ha, h.2 a ha⟩,
    fun h => ⟨fun a ha => (h a ha).1, fun a ha => (h a ha).2⟩⟩

@[simp] theorem oneLine_nil :
  OneLine []
  := by
  simp [OneLine]

@[simp] theorem oneLine_decimal (n : ℕ) :
  OneLine (Decimal.display n)
  := oneLine_of_forall rfl rfl fun _ hc => Decimal.isDigit_of_mem_display hc

theorem oneLine_paramTexts {valueChar : Char → Bool} (hcr : valueChar '\r' = false)
    (hlf : valueChar '\n' = false) {ps : List Param} (h : ∀ p ∈ ps, IsParam valueChar p) :
  ∀ t ∈ paramTexts ps, OneLine t
  := by
  intro t ht
  obtain ⟨p, hp, ht⟩ := mem_flatMap.mp ht
  rcases mem_cons.mp ht with rfl | ht
  · apply oneLine_of_forall (p := nameCharOf valueChar) _ _ (h p hp).name
    · simp [nameCharOf, hcr]
    · simp [nameCharOf, hlf]
  · apply oneLine_of_forall hcr hlf ((h p hp).value t (Option.mem_toList.mp ht))

theorem oneLine_userParamsOf {userPart : Text} (h : OneLine userPart) :
  ∀ t ∈ paramTexts (userParamsOf userPart), OneLine t
  := by
  intro t ht
  obtain ⟨p, hp, ht⟩ := mem_flatMap.mp ht
  obtain ⟨w, hw, rfl⟩ := mem_map.mp hp
  apply h.subset
  intro c hc
  apply (mem_userParamTexts hw).2.2 c
  rw [← displayParam_splitParam w, displayParam]
  rcases mem_cons.mp ht with rfl | ht
  · split <;> simp [hc]
  · rw [Option.mem_toList.mp ht]
    simp [hc]

/-! ### URIs -/

theorem oneLine_of_isUriEnd (h : ∀ c ∈ t, isUriEnd c = false) :
  OneLine t
  := by
  apply oneLine_of_forall (p := fun c => !isUriEnd c) rfl rfl
  simpa using h

variable {uri : SipUri}

theorem IsTelUri.oneLine_host (h : IsTelUri uri) :
  OneLine uri.host
  := by
  rw [h.host]
  cases hfind : uri.params.find? fun p => p.1 == "phone-context".toList with
  | none => simp
  | some p =>
  cases hvalue : p.2 with
  | none => simp [hvalue]
  | some v =>
  apply @oneLine_paramTexts isParamValueChar rfl rfl _ h.params
  apply mem_flatMap.mpr ⟨p, mem_of_find?_eq_some hfind, by simp [hvalue]⟩

theorem IsAbsoluteUri.oneLine_host (h : IsAbsoluteUri uri) :
  OneLine uri.host
  := by
  apply oneLine_of_forall (p := fun c => !isOpaqueEnd c) rfl rfl
  intro c hc
  rw [h.opaquePart c (mem_append_left _ hc)]
  rfl

section

variable [StdText]

theorem oneLine_of_isHostChar (h : ∀ c ∈ t, isHostChar c = true) :
  OneLine t
  := oneLine_of_forall (isHostChar_of_delimiter (by decide)) (isHostChar_of_delimiter (by decide)) h

/-- The texts of a URI other than its host have no line breaks. -/
theorem IsUri.oneLine_otherTexts (h : IsUri uri) :
  ∀ t ∈ uri.otherTexts, OneLine t
  := by
  intro t ht
  simp only [otherTexts, paramTexts, flatMap_append, cons_append, mem_cons, mem_append] at ht
  cases h with
  | sip h =>
    have huser : ∃ userPart, OneLine userPart ∧ (∀ u ∈ uri.user, ∀ c ∈ u, c ∈ userPart)
        ∧ uri.userParams = userParamsOf userPart := by
      rcases h.user with ⟨hnone, hups, -⟩ | ⟨userPart, hend, -, hsome, hups⟩
      · exact ⟨[], oneLine_nil, by simp [hnone], hups⟩
      refine ⟨userPart, oneLine_of_isUriEnd hend, ?_, hups⟩
      rintro u hu c hc
      rw [hsome] at hu
      cases hu
      apply (takeWhile_sublist _).mem hc
    obtain ⟨userPart, hone, husr, hups⟩ := huser
    rcases ht with rfl | ht | (ht | ht) | ht
    · rcases h.scheme with hs | hs <;> rw [hs] <;> decide
    · apply hone.subset (husr t (Option.mem_toList.mp ht))
    · rw [hups] at ht
      apply oneLine_userParamsOf hone t ht
    · apply oneLine_paramTexts rfl rfl h.params t ht
    · apply oneLine_paramTexts rfl rfl h.headers t ht
  | tel h =>
    obtain ⟨subscriber, huser, -, hsub⟩ := h.user
    have hups : uri.userParams = [] := by rw [userParams, h.extras]; rfl
    have hheaders : uri.headers = [] := by rw [headers, h.extras]; rfl
    rcases ht with rfl | ht | (ht | ht) | ht
    · rw [h.scheme]
      decide
    · rw [huser] at ht
      cases mem_singleton.mp ht
      apply oneLine_of_forall rfl rfl hsub
    · simp [hups] at ht
    · apply oneLine_paramTexts rfl rfl h.params t ht
    · simp [hheaders] at ht
  | absolute h =>
    obtain ⟨token, hscheme, htoken, -⟩ := h.scheme
    have hups : uri.userParams = [] := by rw [userParams, h.extras]; rfl
    have hheaders : uri.headers = [] := by rw [headers, h.extras]; rfl
    rcases ht with rfl | ht | (ht | ht) | ht
    · rw [hscheme]
      exact ⟨fun hc => not_mem_of_isSchemeToken htoken hc (by decide),
        fun hc => not_mem_of_isSchemeToken htoken hc (by decide)⟩
    · simp [h.user] at ht
    · simp [hups] at ht
    · simp [h.params] at ht
    · simp [hheaders] at ht

end

/-! ### Hosts that run over the first line -/

/-- The text after the user part of an address: after the last `@` in front of its end. -/
def hostText (address : Text) : Text :=
  match Slice.rfind '@' (address.takeWhile fun c => !isUriEnd c) with
  | none => address
  | some atPos => address.drop (atPos + 1)

/-- Whether the target of a request has the scheme `sip:` or `sips:` and a host that starts
with a bracket which is not closed. -/
def targetLeftOpen (target : Text) : Bool :=
  match (target.dropPrefix? "sip:".toList).or (target.dropPrefix? "sips:".toList) with
  | none => false
  | some address => (hostText address).head? = some '[' ∧ ']' ∉ hostText address

/-- Whether a first line is that of a request and leaves the bracket of its target's host
open. -/
def bracketLeftOpen (line : Text) : Bool :=
  !"SIP/".toList.isPrefixOf line
    && ((Slice.splitOnce ' ' line).any fun parts => targetLeftOpen parts.2)

theorem hostText_eq (address : Text) :
  hostText address = (parseUserinfo address).1
  := by
  rw [hostText, parseUserinfo]
  cases Slice.rfind '@' (address.takeWhile fun c => !isUriEnd c) with
  | none => rfl
  | some atPos =>
  dsimp only
  split <;> rfl

theorem targetLeftOpen_sip {address : Text} {scheme : Scheme}
    (hscheme : scheme = .sip ∨ scheme = .sips) :
  targetLeftOpen (scheme.asStr ++ ':' :: address) = true
    ↔ (hostText address).head? = some '[' ∧ ']' ∉ hostText address
  := by
  rw [targetLeftOpen]
  rcases hscheme with rfl | rfl <;> simp [Scheme.asStr, List.dropPrefix?]

theorem targetLeftOpen_other {target : Text}
    (htarget : ∀ scheme : Scheme, scheme = .sip ∨ scheme = .sips → ∀ after,
      target ≠ scheme.asStr ++ ':' :: after) :
  targetLeftOpen target = false
  := by
  have hnone {token : Text} (h : ∀ after, target ≠ token ++ after) :
      target.dropPrefix? token = none := by
    rw [Option.eq_none_iff_forall_ne_some]
    intro after hafter
    obtain ⟨p, rfl, hp⟩ := List.dropPrefix?_eq_some_iff.mp hafter
    cases beq_iff_eq.mp hp
    apply h after rfl
  have hsip : target.dropPrefix? "sip:".toList = none := hnone (htarget .sip (.inl rfl))
  have hsips : target.dropPrefix? "sips:".toList = none := hnone (htarget .sips (.inr rfl))
  rw [targetLeftOpen, hsip, hsips]
  rfl

theorem bracketLeftOpen_request {method target : Text} (hspace : ' ' ∉ method)
    (hslash : '/' ∉ method) :
  bracketLeftOpen (method ++ ' ' :: target) = targetLeftOpen target
  := by
  have hsip : "SIP/".toList.isPrefixOf (method ++ ' ' :: target) = false := by
    rw [Bool.eq_false_iff]
    intro h
    obtain ⟨after, hafter⟩ := isPrefixOf_iff_prefix.mp h
    obtain ⟨z, rfl, -⟩ := Lines.exists_of_append_eq_append_cons (by decide) hafter
    apply hslash
    simp
  rw [bracketLeftOpen, hsip, Slice.splitOnce_append hspace]
  rfl

section

variable [StdText]

/-- The host of a SIP URI runs over the end of the first line, up to a bracket on a later line
of what follows that end. -/
def CrossesLine (uri : SipUri) (more : Text) : Prop :=
  ∃ userText portText headerText rest x y after,
    SipUriText uri userText portText headerText rest
    ∧ uri.host = '[' :: (x ++ crlfText ++ y ++ [']']) ∧ OneLine x ∧ ']' ∉ y
    ∧ more = y ++ ']' :: after

theorem host_cases {host hostPart more rest : Text} (hhost : IsHost host) (hpart : OneLine hostPart)
    (heq : host ++ rest = hostPart ++ crlfText ++ more) :
  (OneLine host ∧ ¬ (hostPart.head? = some '[' ∧ ']' ∉ hostPart))
    ∨ (hostPart.head? = some '[' ∧ ']' ∉ hostPart) ∧ ∃ x y after,
      host = '[' :: (x ++ crlfText ++ y ++ [']']) ∧ OneLine x ∧ ']' ∉ y
      ∧ more = y ++ ']' :: after
  := by
  have heq' : host ++ rest = hostPart ++ '\r' :: ('\n' :: more) := by simpa [crlfText] using heq
  rcases hhost with ⟨x, -, hx, rfl⟩ | ⟨hne, hrun⟩
  · by_cases hcr : '\r' ∈ x
    · obtain ⟨x₁, x₂, rfl, hx₁⟩ := eq_append_cons_of_mem hcr
      have hopen : '\r' ∉ '[' :: x₁ := by simp [hx₁]
      have hcut : ('[' :: x₁) ++ '\r' :: (x₂ ++ ']' :: rest)
          = hostPart ++ '\r' :: ('\n' :: more) := by
        simpa using heq'
      obtain ⟨rfl, hmore⟩ := Lines.append_cons_inj hopen hpart.1 hcut
      simp only [mem_append, mem_cons, not_or] at hx
      cases x₂ with
      | nil => cases hmore
      | cons c y =>
      obtain ⟨rfl, rfl⟩ := hmore
      refine .inr ⟨⟨rfl, by simp [hx.1]⟩, x₁, y, rest, by simp [crlfText], ?_, ?_, rfl⟩
      · apply (oneLine_cons.mp hpart).2
      · exact fun hmem => hx.2.2 (mem_cons_of_mem _ hmem)
    · have hhost : '\r' ∉ '[' :: (x ++ [']']) := by simp [hcr]
      obtain ⟨z, rfl, -⟩ := Lines.exists_of_append_eq_append_cons hhost heq'
      refine .inl ⟨(oneLine_append.mp hpart).1, ?_⟩
      rintro ⟨-, hclose⟩
      apply hclose
      simp
  · have hone := oneLine_of_isHostChar hrun
    obtain ⟨z, rfl, -⟩ := Lines.exists_of_append_eq_append_cons hone.1 heq'
    refine .inl ⟨hone, ?_⟩
    rintro ⟨hhead, -⟩
    obtain ⟨c, t, rfl⟩ := exists_cons_of_ne_nil hne
    cases hhead
    have hc := hrun '[' mem_cons_self
    rw [isHostChar_of_delimiter (by decide)] at hc
    cases hc

theorem SipUriText.oneLine_userText {userText portText headerText rest : Text}
    (h : SipUriText uri userText portText headerText rest) :
  OneLine userText
  := by
  rcases h.user with ⟨-, -, rfl⟩ | ⟨userPart, hend, rfl, -, -⟩
  · apply oneLine_nil
  · rw [oneLine_append]
    exact ⟨oneLine_of_isUriEnd hend, by decide⟩

theorem SipUriText.hostText_append {userText portText headerText rest hostPart : Text}
    (h : SipUriText uri userText portText headerText rest) (hat : AtFree hostPart) :
  hostText (userText ++ hostPart) = hostPart
  := by
  rw [hostText_eq]
  rcases h.user with ⟨-, -, rfl⟩ | ⟨userPart, hend, rfl, -, -⟩
  · rw [nil_append, parseUserinfo_of_atFree hat]
  · rw [append_assoc, singleton_append, parseUserinfo_append hend hat]

/-- The host of a request line's target has a line break exactly if its bracket is left open
on the first line. -/
theorem requestLine_cases {start more rest : Text} {line : RequestLine} (hstart : OneLine start)
    (h : parseRequestLine (start ++ crlfText ++ more) = .ok (rest, line)) :
  (bracketLeftOpen start = false ∧ OneLine line.requestUri.host)
    ∨ bracketLeftOpen start = true ∧ CrossesLine line.requestUri more
  := by
  obtain ⟨method, afterMethod, afterUri, _, _, -, hinput, hmethod, -, huri, -⟩ :=
    parseRequestLine_eq_ok.mp h
  have hnot {c : Char} (hc : c ∈ [' ', '/', '\r', '\n']) : c ∉ method := by
    intro hmem
    have := hmethod c hmem
    rw [isMethodChar_of_delimiter hc] at this
    cases this
  -- The method and the space after it are on the first line.
  obtain ⟨target, rfl, rfl⟩ : ∃ target, start = method ++ ' ' :: target
      ∧ afterMethod = target ++ crlfText ++ more := by
    have heq : method ++ [' '] ++ afterMethod = start ++ '\r' :: ('\n' :: more) := by
      simpa [crlfText] using hinput.symm
    obtain ⟨z, rfl, hz⟩ := Lines.exists_of_append_eq_append_cons
      (by simp [hnot (c := '\r') (by decide)]) heq
    exact ⟨z, by simp, by simpa [crlfText] using hz⟩
  have htarget : OneLine target := (oneLine_cons.mp (oneLine_append.mp hstart).2).2
  rw [bracketLeftOpen_request (hnot (by decide)) (hnot (by decide))]
  rcases parseUri_cases huri with ⟨userText, portText, headerText, htext, heq⟩ | ⟨huri, hscheme⟩
  · have hscheme : OneLine line.requestUri.scheme.asStr := by
      rcases htext.scheme with hs | hs <;> rw [hs] <;> decide
    have hlead : '\r' ∉ line.requestUri.scheme.asStr ++ ':' :: userText := by
      simp [hscheme.1, htext.oneLine_userText.1]
    obtain ⟨hostPart, rfl, hhost⟩ := Lines.exists_of_append_eq_append_cons
      (x := target) (t := '\n' :: more) hlead (by simpa [crlfText] using heq.symm)
    have hat : AtFree hostPart := by
      have := htext.atFree
      rw [hhost, atFree_append] at this
      apply this.1
    have hpart : OneLine hostPart := (oneLine_append.mp htarget).2
    rw [append_assoc, cons_append, Bool.eq_false_iff, Ne,
      targetLeftOpen_sip htext.scheme, htext.hostText_append hat]
    rcases host_cases htext.host hpart (by simpa [crlfText] using hhost) with
      ⟨hone, hclosed⟩ | ⟨hopen, x, y, after, hx⟩
    · apply Or.inl ⟨hclosed, hone⟩
    · exact .inr ⟨hopen, userText, portText, headerText, _, x, y, after, htext, hx⟩
  · refine .inl ⟨targetLeftOpen_other ?_, ?_⟩
    · rintro scheme hs after rfl
      apply hscheme scheme hs (after ++ crlfText ++ more)
      simp
    · rcases huri with htel | habs
      · apply htel.oneLine_host
      · apply habs.oneLine_host

end

/-! ### Header fields -/

theorem oneLine_canonicalKey {name : Text} (h : OneLine name) :
  OneLine (canonicalKey name)
  := by
  apply canonicalKey_cases
  · intro c full hfull
    unfold compactForm at hfull
    split at hfull <;> cases hfull <;> decide
  · intro _
    exact ⟨fun hc => h.1 (Text.mem_of_mem_toAsciiLowercase rfl hc),
      fun hc => h.2 (Text.mem_of_mem_toAsciiLowercase rfl hc)⟩

variable {fields : List (Text × Text)}

theorem Fields.oneLine {lines : List Text} (h : Fields lines fields)
    (hlines : ∀ l ∈ lines, OneLine l) :
  ∀ f ∈ fields, OneLine f.1 ∧ OneLine f.2
  := by
  induction h with
  | nil => simp
  | @cons token ws text folds lines fields hne htoken hws hfolds rest ih =>
  have hfirst := hlines _ mem_cons_self
  simp only [oneLine_append, oneLine_cons] at hfirst
  have hdrop (l : Text) (hl : OneLine l) : OneLine (l.dropWhile isWsp) :=
    hl.subset fun c hc => (dropWhile_sublist _).mem hc
  have hfold : OneLine (foldText text folds) := by
    rw [foldText, oneLine_append]
    refine ⟨hdrop _ hfirst.2.2, ?_⟩
    have hmem {c : Char} (hc : c ∈ folds.flatMap fun l => ' ' :: l.dropWhile isWsp)
        (hspace : c ≠ ' ') : ∃ l ∈ folds, c ∈ l := by
      obtain ⟨l, hl, hc⟩ := mem_flatMap.mp hc
      exact ⟨l, hl, (dropWhile_sublist _).mem ((mem_cons.mp hc).resolve_left hspace)⟩
    have hline {l : Text} (hl : l ∈ folds) : OneLine l := hlines l (by simp [hl])
    constructor
    · intro hc
      obtain ⟨l, hl, hcl⟩ := hmem hc (by decide)
      apply (hline hl).1 hcl
    · intro hc
      obtain ⟨l, hl, hcl⟩ := hmem hc (by decide)
      apply (hline hl).2 hcl
  rintro f hf
  rcases mem_cons.mp hf with rfl | hf
  · exact ⟨hfirst.1.1.subset fun c hc => Slice.mem_of_mem_trimMatches hc,
      hfold.subset fun c hc => Slice.mem_of_mem_trimMatches hc⟩
  · apply ih (fun l hl => hlines l (by simp [hl])) f hf

theorem oneLine_addFields (h : ∀ f ∈ fields, OneLine f.1 ∧ OneLine f.2) :
  ∀ t ∈ (addFields SipHeaders.new fields).texts, OneLine t
  := by
  intro t ht
  obtain ⟨e, he, ht⟩ := mem_flatMap.mp ht
  obtain ⟨hname, -, hvalues⟩ := mem_entries_addFields he
  obtain ⟨f, hf, hfst⟩ := mem_map.mp hname
  have hone : OneLine e.2.1 := hfst ▸ (h f hf).1
  rcases mem_cons.mp ht with rfl | ht
  · rw [(addFields SipHeaders.new fields).canonical e he]
    apply oneLine_canonicalKey hone
  rcases mem_cons.mp ht with rfl | ht
  · apply hone
  · obtain ⟨g, hg, rfl⟩ := mem_map.mp (hvalues t ht)
    apply (h g hg).2

theorem SipHeaders.oneLine_rows {h : SipHeaders} (hh : ∀ t ∈ h.texts, OneLine t) :
  ∀ l ∈ h.rows, OneLine l
  := by
  intro l hl
  obtain ⟨e, he, hl⟩ := mem_flatMap.mp hl
  obtain ⟨value, hvalue, rfl⟩ := mem_map.mp hl
  have hentry := h.wireOrder_perm.mem_iff.mp he
  have htext {t : Text} (ht : t ∈ e.1 :: e.2.1 :: e.2.2) : OneLine t :=
    hh t (mem_flatMap.mpr ⟨e, hentry, ht⟩)
  simp only [SipHeaders.row, oneLine_append]
  exact ⟨⟨htext (by simp), by decide⟩, htext (by simp [hvalue])⟩

/-! ### Start lines -/

variable {ps : List Param}

theorem oneLine_displayParam (h : ∀ t ∈ paramTexts ps, OneLine t) {p : Param} (hp : p ∈ ps) :
  OneLine (displayParam p)
  := by
  have htext {t : Text} (ht : t ∈ p.1 :: p.2.toList) : OneLine t :=
    h t (mem_flatMap.mpr ⟨p, hp, ht⟩)
  rw [displayParam]
  split
  · rename_i value hvalue
    rw [oneLine_append, oneLine_cons]
    exact ⟨htext (by simp), by decide, htext (by simp [hvalue])⟩
  · apply htext (by simp)

theorem oneLine_displayParams (h : ∀ t ∈ paramTexts ps, OneLine t) :
  OneLine (displayParams ps)
  := by
  rw [displayParams, oneLine_flatMap]
  intro p hp
  rw [oneLine_cons]
  exact ⟨by decide, oneLine_displayParam h hp⟩

theorem oneLine_displayHeaders {hs : List Param} (h : ∀ t ∈ paramTexts hs, OneLine t) :
  OneLine (displayHeaders hs)
  := by
  cases hs with
  | nil => apply oneLine_nil
  | cons k hs =>
  rw [displayHeaders_cons, oneLine_append, oneLine_flatMap]
  refine ⟨oneLine_displayParam h mem_cons_self, ?_⟩
  intro p hp
  rw [oneLine_cons]
  exact ⟨by decide, oneLine_displayParam h (mem_cons_of_mem _ hp)⟩

theorem SipUri.oneLine_parts (hother : ∀ t ∈ uri.otherTexts, OneLine t) :
  OneLine uri.scheme.asStr ∧ OneLine uri.userDisplay ∧ OneLine uri.portDisplay
    ∧ OneLine (displayParams uri.params) ∧ OneLine uri.headersDisplay
  := by
  simp only [otherTexts, paramTexts, flatMap_append, cons_append, mem_cons,
    mem_append] at hother
  have hups := oneLine_displayParams fun t ht => hother t (.inr (.inr (.inl (.inl ht))))
  have hheaders := oneLine_displayHeaders fun t ht => hother t (.inr (.inr (.inr ht)))
  refine ⟨hother _ (.inl rfl), ?_, ?_, ?_, ?_⟩
  · rw [userDisplay]
    split
    · rename_i user hu
      have huser := hother user (.inr (.inl (Option.mem_toList.mpr hu)))
      simp [huser, hups]
    · apply oneLine_nil
  · rw [portDisplay]
    split <;> simp
  · exact oneLine_displayParams fun t ht => hother t (.inr (.inr (.inl (.inr ht))))
  · rw [headersDisplay]
    split
    · apply oneLine_nil
    · rw [oneLine_cons]
      exact ⟨by decide, hheaders⟩

theorem SipUri.oneLine_display (hhost : OneLine uri.host)
    (hother : ∀ t ∈ uri.otherTexts, OneLine t) :
  OneLine uri.display
  := by
  obtain ⟨hscheme, huser, hport, hparams, hheaders⟩ := oneLine_parts hother
  have hformat : OneLine (formatSipHost uri.host) := by
    rw [formatSipHost]
    split
    · simp [hhost]
    · apply hhost
  have hauthority : OneLine uri.displayAuthority := by
    simp only [displayAuthority, oneLine_append]
    refine ⟨⟨huser, ?_⟩, hport⟩
    split
    · apply hhost
    · apply hformat
  simp only [display, oneLine_append, oneLine_cons]
  refine ⟨⟨⟨hscheme, by decide, ?_⟩, hparams⟩, hheaders⟩
  split
  · cases hu : uri.user with
    | none => apply oneLine_nil
    | some user =>
    apply hother user
    simp [otherTexts, hu]
  · apply hauthority

theorem Version.oneLine_display (v : Version) :
  OneLine v.display
  := by
  simp only [Version.display, oneLine_append, oneLine_cons, oneLine_decimal, and_true]
  decide

theorem StartLine.oneLine_line {line : StartLine} (h : ∀ t ∈ line.texts, OneLine t) :
  OneLine line.line
  := by
  cases line with
  | request req =>
    have huri : OneLine req.requestUri.display :=
      oneLine_display (h _ (by simp [texts]))
        fun t ht => h t (by simp [texts, ht])
    have hmethod := h req.method.asStr (by simp [texts])
    simp [line, hmethod, huri, Version.oneLine_display]
  | response resp =>
    have hreason := h resp.reasonPhrase (by simp [texts])
    simp [line, hreason, Version.oneLine_display]

theorem lineCount_of_oneLine {m : SipMessage} (h : ∀ t ∈ m.texts, OneLine t) :
  m.lineCount = 1 + m.headers.valueCount
  := by
  have hlines : ∀ l ∈ m.startLine.line :: m.headers.rows, '\n' ∉ l := by
    intro l hl
    rcases mem_cons.mp hl with rfl | hl
    · apply (oneLine_line fun t ht => h t (mem_append_left _ ht)).2
    · apply (SipHeaders.oneLine_rows (fun t ht => h t (mem_append_right _ ht)) l hl).2
  have hcount := Utf8.count_encode (unlines crlfText (m.startLine.line :: m.headers.rows))
    (c := '\n') (by decide)
  rw [SipMessage.lineCount, SipMessage.headBytes_eq]
  apply hcount.trans
  rw [count_unlines hlines, length_cons, SipHeaders.length_rows, Nat.add_comm]

/-! ### Messages -/

section

variable [StdText]

theorem IsRequestLine.oneLine_method {line : RequestLine} (h : IsRequestLine line) :
  OneLine line.method.asStr
  := by
  obtain ⟨s, -, hs, hm⟩ := h.method
  rw [hm]
  exact oneLine_of_forall (isMethodChar_of_delimiter (by decide))
    (isMethodChar_of_delimiter (by decide)) (isMethodChar_of_mem_asStr hs)

theorem oneLine_startLine_iff {start more rest : Text} {line : StartLine} (hstart : OneLine start)
    (h : parseStartLine (start ++ crlfText ++ more) = .ok (rest, line)) :
  (∀ t ∈ line.texts, OneLine t) ↔ bracketLeftOpen start = false
  := by
  rcases parseStartLine_eq_ok.mp h with ⟨req, rfl, hreq⟩ | ⟨resp, rfl, hresp⟩
  · have hline := isRequestLine_of_parseRequestLine hreq
    have hmethod := hline.oneLine_method
    have htexts : (∀ t ∈ (request req).texts, OneLine t)
        ↔ OneLine req.requestUri.host := by
      simp only [texts, forall_mem_cons, hmethod, true_and, and_iff_left_iff_imp]
      exact fun _ => hline.requestUri.oneLine_otherTexts
    rw [htexts]
    rcases requestLine_cases hstart hreq with
      ⟨hclosed, hone⟩ | ⟨hopen, _, _, _, _, x, y, _, -, hhost, -⟩
    · simp [hclosed, hone]
    · simp [hopen, hhost, OneLine, crlfText]
  · obtain ⟨-, -, lead, rfl⟩ := isStatusLine_of_parseStatusLine hstart.1 hresp
    simp only [oneLine_append] at hstart
    simp [texts, hstart.2, bracketLeftOpen]

/-- No CR or LF gets into a message, and none into the lines it is written in, exactly if its
first line closes the brackets around the host of its target. -/
theorem oneLine_iff_of_parse {b : Bytes} {m : SipMessage} (h : parseSipMessageBytes b = .ok m) :
  ((∀ t ∈ m.texts, OneLine t) ∧ m.lineCount = 1 + m.headers.valueCount)
    ↔ bracketLeftOpen ((blockLines b).headD []) = false
  := by
  obtain ⟨n, len, hblock, -⟩ := parseSipMessageBytes_eq_ok.mp h
  obtain ⟨k, start, lines, rest, hb⟩ := exists_headLines hblock
  obtain ⟨⟨r, hstartLine⟩, ⟨fields, hfields, hheaders⟩, -⟩ := hb.parseSipMessageBytes_eq_ok.mp h
  have hone : ∀ l ∈ start :: lines, OneLine l := fun l hl =>
    ⟨(hb.isLine l hl).cr, (hb.isLine l hl).lf⟩
  have hfieldTexts : ∀ t ∈ m.headers.texts, OneLine t := by
    rw [hheaders]
    exact oneLine_addFields <| hfields.oneLine fun l hl => hone l (mem_cons_of_mem _ hl)
  have hstart : (∀ t ∈ m.startLine.texts, OneLine t) ↔ bracketLeftOpen start = false := by
    rw [Lines.unlines_cons, append_assoc] at hstartLine
    exact oneLine_startLine_iff (hone start mem_cons_self) hstartLine
  rw [hb.blockLines_eq, headD_cons, ← hstart]
  constructor
  · rintro ⟨htexts, -⟩ t ht
    apply htexts t (mem_append_left _ ht)
  intro htexts
  have hall : ∀ t ∈ m.texts, OneLine t := by
    intro t ht
    rcases mem_append.mp ht with ht | ht
    · apply htexts t ht
    · apply hfieldTexts t ht
  exact ⟨hall, lineCount_of_oneLine hall⟩

end

/-- A request whose host is closed on the first line. -/
def closedBracket : Bytes :=
  Utf8.encode "OPTIONS sip:[::1] SIP/2.0\r\nX: ]\r\n\r\n".toList

/-- A request whose host is closed on the second line. -/
def openBracket : Bytes :=
  Utf8.encode "OPTIONS sip:[\r\nX: ] SIP/2.0\r\n\r\n".toList

theorem oneLine_closedBracket :
  ∃ m, @parseSipMessageBytes StdText.ascii closedBracket = .ok m
    ∧ (∀ t ∈ m.texts, OneLine t) ∧ m.lineCount = 1 + m.headers.valueCount
  := by
  have hparse : @parseSipMessageBytes StdText.ascii closedBracket
      = .ok ⟨.request ⟨.options, ⟨.sip, none, "[::1]".toList, none, [], none⟩, .sip20⟩,
        SipHeaders.new.add ['X'] [']'], []⟩ := by decide +kernel
  exact ⟨_, hparse, (@oneLine_iff_of_parse StdText.ascii _ _ hparse).mpr (by decide +kernel)⟩

/-- The host takes the end of the first line with it, and the message is written in one line
more than it has values and a start line. -/
theorem lineBreak_in_host_of_openBracket :
  ∃ m, @parseSipMessageBytes StdText.ascii openBracket = .ok m
    ∧ (∃ uri, m.requestUri = some uri ∧ uri.host = "[\r\nX: ]".toList)
    ∧ ¬ ((∀ t ∈ m.texts, OneLine t) ∧ m.lineCount = 1 + m.headers.valueCount)
    ∧ m.lineCount = 2 + m.headers.valueCount
  := by
  have hparse : @parseSipMessageBytes StdText.ascii openBracket
      = .ok ⟨.request ⟨.options, ⟨.sip, none, "[\r\nX: ]".toList, none, [], none⟩, .sip20⟩,
        SipHeaders.new.add ['X'] "] SIP/2.0".toList, []⟩ := by decide +kernel
  exact ⟨_, hparse, ⟨_, rfl, rfl⟩, by decide +kernel, by decide +kernel⟩

end Siphon
