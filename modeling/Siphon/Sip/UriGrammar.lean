import Siphon.Sip.UriParts

/-!
# What the URI parsers read

The texts each URI parser accepts, part by part, and that it reads back what is printed for
the URI it returned.
-/

namespace Siphon

open List Nom Scheme

/-! ### SIP URIs -/

theorem headers_setExtras (uri : SipUri) (headers userParams : List Param) :
  (uri.setExtras headers userParams).headers = headers
    ∧ (uri.setExtras headers userParams).userParams = userParams
  := by
  rw [SipUri.headers, SipUri.userParams, SipUri.setExtras]
  split
  · rename_i h
    simp [h.1, h.2]
  · simp

namespace SipUri

def userDisplay (uri : SipUri) : Text :=
  match uri.user with
  | some user => user ++ displayParams uri.userParams ++ ['@']
  | none => []

def portDisplay (uri : SipUri) : Text :=
  match uri.port with
  | some port => ':' :: Decimal.display port
  | none => []

def headersDisplay (uri : SipUri) : Text :=
  match uri.headers with
  | [] => []
  | headers => '?' :: displayHeaders headers

end SipUri

open SipUri

variable {uri : SipUri}

section

variable {tail : Text} (htail : AtEnd tail)

include htail

theorem head?_afterParams :
  ∀ c ∈ (uri.headersDisplay ++ tail).head?, c ∈ ['?', ' ']
  := by
  rw [headersDisplay]
  split
  · intro c hc
    simp [htail c hc]
  · simp

theorem head?_afterPort :
  ∀ c ∈ (displayParams uri.params ++ (uri.headersDisplay ++ tail)).head?, c ∈ [';', '?', ' ']
  := by
  intro c hc
  cases hp : uri.params with
  | nil =>
    rw [hp] at hc
    apply mem_cons_of_mem _ (head?_afterParams htail c hc)
  | cons p ps =>
    rw [hp] at hc
    cases hc
    apply mem_cons_self

theorem head?_afterHost :
  ∀ c ∈ (uri.portDisplay ++ (displayParams uri.params ++ (uri.headersDisplay ++ tail))).head?,
    c ∈ [':', ';', '?', ' ']
  := by
  intro c hc
  rw [portDisplay] at hc
  split at hc
  · cases hc
    apply mem_cons_self
  · apply mem_cons_of_mem _ (head?_afterPort htail c hc)

end

section

variable [StdText] {input rest : Text}

/-- A host is a text in brackets or a run of host characters. -/
theorem parseHost_eq_ok {host : Text} :
  parseHost input = .ok (rest, host)
    ↔ (∃ x, input = '[' :: (x ++ ']' :: rest) ∧ x ≠ [] ∧ ']' ∉ x ∧ host = '[' :: (x ++ [']']))
      ∨ (host ≠ [] ∧ input = host ++ rest ∧ (∀ c ∈ host, isHostChar c = true)
        ∧ ∀ c ∈ rest.head?, isHostChar c = false)
  := by
  have hbracket : isHostChar '[' = false := by
    rw [isHostChar, StdText.isAlphanumeric_ascii '[' (by decide)]
    rfl
  rw [parseHost]
  split
  · rename_i hhead
    obtain ⟨tail, rfl⟩ : ∃ tail, input = '[' :: tail := by
      cases input with
      | nil => cases hhead
      | cons c tail =>
      cases hhead
      exact ⟨tail, rfl⟩
    simp only [bind_eq_ok, Prod.exists]
    constructor
    · rintro ⟨r₁, c, h₁, r₂, x, h₂, r₃, d, h₃, h⟩
      obtain ⟨hr, -⟩ := char_eq_ok.mp h₁
      obtain ⟨hne, rfl, hx, -⟩ := takeWhile1_eq_ok.mp h₂
      obtain ⟨rfl, -⟩ := char_eq_ok.mp h₃
      cases h
      refine .inl ⟨x, hr, hne, ?_, rfl⟩
      intro hmem
      simpa using hx ']' hmem
    · rintro (⟨x, hinput, hne, hx, rfl⟩ | ⟨hne, hinput, hhost, -⟩)
      · have hrun : Nom.takeWhile1 (fun c => decide (c ≠ ']')) (x ++ ']' :: rest)
            = .ok (']' :: rest, x) := by
          rw [takeWhile1_eq_ok]
          refine ⟨hne, rfl, ?_, ?_⟩
          · intro c hc
            rw [decide_eq_true_eq]
            rintro rfl
            apply hx hc
          · rintro c ⟨⟩
            rfl
        exact ⟨_, _, char_eq_ok.mpr ⟨hinput, rfl⟩, _, _, hrun, _, _,
          char_eq_ok.mpr ⟨rfl, rfl⟩, rfl⟩
      · obtain ⟨c, t, rfl⟩ := exists_cons_of_ne_nil hne
        cases hinput
        have hc := hhost '[' mem_cons_self
        rw [hbracket] at hc
        cases hc
  · rename_i hhead
    rw [takeWhile1_eq_ok]
    constructor
    · intro h
      apply Or.inr h
    · rintro (⟨x, rfl, -⟩ | h)
      · exact absurd rfl hhead
      · apply h

theorem parseSipUri_eq_ok :
  parseSipUri input = .ok (rest, uri)
    ↔ ∃ scheme i₁ user ups i₂ host i₃ port i₄ params i₅ headers,
      (scheme = .sip ∨ scheme = .sips) ∧ input = scheme.asStr ++ ':' :: i₁
      ∧ parseUserinfo i₁ = (i₂, user, ups) ∧ parseHost i₂ = .ok (i₃, host)
      ∧ Nom.opt parsePort i₃ = .ok (i₄, port) ∧ Nom.opt parseUriParams i₄ = .ok (i₅, params)
      ∧ Nom.opt (Nom.preceded (Nom.char '?') parseUriHeaders) i₅ = .ok (rest, headers)
      ∧ uri = (⟨scheme, user, host, port, params.getD [], none⟩ : SipUri).setExtras
        (headers.getD []) ups
  := by
  simp only [parseSipUri, bind_eq_ok, Prod.exists]
  constructor
  · rintro ⟨i₁, tag, htag, h⟩
    obtain ⟨scheme, hscheme, hinput, hs⟩ : ∃ scheme : Scheme, (scheme = .sip ∨ scheme = .sips)
        ∧ input = scheme.asStr ++ ':' :: i₁
        ∧ (if tag = "sips:".toList then sips else sip) = scheme := by
      rcases alt_eq_ok.mp htag with htag | ⟨-, htag⟩ <;>
        obtain ⟨rfl, rfl⟩ := tag_eq_ok.mp htag
      · exact ⟨.sip, .inl rfl, rfl, by decide⟩
      · exact ⟨.sips, .inr rfl, rfl, by decide⟩
    rw [hs] at h
    rcases hu : parseUserinfo i₁ with ⟨i₂, user, ups⟩
    rw [hu] at h
    obtain ⟨i₃, host, hhost, i₄, port, hport, i₅, params, hparams, r, headers, hheaders, h⟩ := h
    cases h
    exact ⟨scheme, i₁, user, ups, i₂, host, i₃, port, i₄, params, i₅, headers, hscheme, hinput, hu,
      hhost, hport, hparams, hheaders, rfl⟩
  · rintro ⟨scheme, i₁, user, ups, i₂, host, i₃, port, i₄, params, i₅, headers, hscheme, rfl, hu,
      hhost, hport, hparams, hheaders, rfl⟩
    refine ⟨i₁, scheme.asStr ++ [':'], ?_, ?_⟩
    · rw [alt_eq_ok, tag_eq_ok, tag_eq_ok]
      rcases hscheme with rfl | rfl
      · apply Or.inl ⟨rfl, rfl⟩
      · refine .inr ⟨⟨⟨sips.asStr ++ ':' :: i₁, .tag⟩, ?_⟩, rfl, rfl⟩
        rw [Nom.tag, if_neg]
        simp [asStr, List.isPrefixOf]
    · have hs : (if scheme.asStr ++ [':'] = "sips:".toList then sips else sip)
          = scheme := by
        rcases hscheme with rfl | rfl <;> decide
      rw [hs, hu]
      exact ⟨i₃, host, hhost, i₄, port, hport, i₅, params, hparams, rest, headers, hheaders, rfl⟩

/-- A host as a URI stores it: in brackets, or a run of host characters. -/
def IsHost (host : Text) : Prop :=
  (∃ x, x ≠ [] ∧ ']' ∉ x ∧ host = '[' :: (x ++ [']']))
    ∨ (host ≠ [] ∧ ∀ c ∈ host, isHostChar c = true)

/-- The text a user part was read from. -/
def UserText (user : Option Text) (userParams : List Param) (text : Text) : Prop :=
  (user = none ∧ userParams = [] ∧ text = [])
    ∨ ∃ userPart, (∀ c ∈ userPart, isUriEnd c = false) ∧ text = userPart ++ ['@']
      ∧ user = some (userPart.takeWhile (· ≠ ';')) ∧ userParams = userParamsOf userPart

def PortText (port : Option ℕ) (text : Text) : Prop :=
  (port = none ∧ text = [])
    ∨ ∃ n ds, port = some n ∧ n < 2 ^ 16 ∧ text = ':' :: ds ∧ ∀ c ∈ ds, c.isDigit = true

def HeadersText (headers : List Param) (text : Text) : Prop :=
  (headers = [] ∧ (text = [] ∨ text = ['?']))
    ∨ headers ≠ [] ∧ (text = '?' :: '&' :: displayHeaders headers
      ∨ text = '?' :: displayHeaders headers)

/-- The text a SIP URI was read from: its user part, its port and its headers, the other parts
being verbatim, and what follows it. -/
structure SipUriText (uri : SipUri) (userText portText headerText rest : Text) : Prop where
  scheme : uri.scheme = .sip ∨ uri.scheme = .sips
  user : UserText uri.user uri.userParams userText
  atFree : AtFree (uri.host ++ (portText ++ (displayParams uri.params ++ (headerText ++ rest))))
  host : IsHost uri.host
  port : PortText uri.port portText
  params : ∀ p ∈ uri.params, IsParam isParamValueChar p
  headers : ∀ p ∈ uri.headers, IsParam isHeaderValueChar p
  headerText : HeadersText uri.headers headerText
  extras : uri.extras = if uri.headers = [] ∧ uri.userParams = [] then none
    else some ⟨uri.headers, uri.userParams⟩

omit [StdText] in
theorem portText_of_opt {port : Option ℕ} (h : Nom.opt parsePort input = .ok (rest, port)) :
  ∃ text, PortText port text ∧ input = text ++ rest
  := by
  cases port with
  | none =>
    obtain ⟨rfl, -⟩ := opt_eq_ok_none.mp h
    exact ⟨[], .inl ⟨rfl, rfl⟩, rfl⟩
  | some n =>
    obtain ⟨ds, rfl, -, hds, -, hn⟩ := parsePort_eq_ok.mp (opt_eq_ok_some.mp h)
    exact ⟨':' :: ds, .inr ⟨n, ds, rfl, (Decimal.parse_eq_some hn).2.2, rfl, hds⟩, rfl⟩

omit [StdText] in
theorem headersText_of_opt {headers : Option (List Param)}
    (h : Nom.opt (Nom.preceded (Nom.char '?') parseUriHeaders) input = .ok (rest, headers)) :
  ∃ text, (∀ p ∈ headers.getD [], IsParam isHeaderValueChar p)
    ∧ HeadersText (headers.getD []) text ∧ input = text ++ rest
  := by
  cases headers with
  | none =>
    obtain ⟨rfl, -⟩ := opt_eq_ok_none.mp h
    exact ⟨[], by simp, .inl ⟨rfl, .inl rfl⟩, rfl⟩
  | some hs =>
    obtain ⟨mid, c, hc, hp⟩ := preceded_eq_ok.mp (opt_eq_ok_some.mp h)
    obtain ⟨rfl, -⟩ := char_eq_ok.mp hc
    obtain ⟨hparam, ⟨rfl, rfl⟩ | ⟨hne, rfl | rfl⟩⟩ := eq_displayHeaders_of_parseUriHeaders hp
    · exact ⟨['?'], hparam, .inl ⟨rfl, .inr rfl⟩, rfl⟩
    · exact ⟨'?' :: '&' :: displayHeaders hs, hparam, .inr ⟨hne, .inl rfl⟩, rfl⟩
    · exact ⟨'?' :: displayHeaders hs, hparam, .inr ⟨hne, .inr rfl⟩, rfl⟩

/-- What a SIP URI was read from. -/
theorem exists_sipUriText (h : parseSipUri input = .ok (rest, uri)) :
  ∃ userText portText headerText, SipUriText uri userText portText headerText rest
    ∧ input = uri.scheme.asStr ++ ':' :: (userText ++ (uri.host ++ (portText
      ++ (displayParams uri.params ++ (headerText ++ rest)))))
  := by
  obtain ⟨scheme, i₁, user, ups, i₂, host, i₃, port, i₄, params, i₅, headers, hscheme, rfl, hu,
    hhost, hport, hparams, hheaders, rfl⟩ := parseSipUri_eq_ok.mp h
  obtain ⟨hhs, hups⟩ := headers_setExtras ⟨scheme, user, host, port, params.getD [], none⟩
    (headers.getD []) ups
  obtain ⟨hostOk, rfl⟩ : IsHost host ∧ i₂ = host ++ i₃ := by
    rcases parseHost_eq_ok.mp hhost with ⟨x, rfl, hne, hx, rfl⟩ | ⟨hne, rfl, hrun, -⟩
    · exact ⟨.inl ⟨x, hne, hx, rfl⟩, by simp⟩
    · exact ⟨.inr ⟨hne, hrun⟩, rfl⟩
  obtain ⟨portText, hportOk, rfl⟩ := portText_of_opt hport
  obtain ⟨hparamsOk, rfl⟩ : (∀ p ∈ params.getD [], IsParam isParamValueChar p)
      ∧ i₄ = displayParams (params.getD []) ++ i₅ := by
    cases params with
    | none =>
      obtain ⟨rfl, -⟩ := opt_eq_ok_none.mp hparams
      simp [displayParams]
    | some ps =>
      obtain ⟨rfl, hps⟩ := eq_displayParams_of_parseUriParams (opt_eq_ok_some.mp hparams)
      exact ⟨hps, rfl⟩
  obtain ⟨headerText, hheadersOk, htextOk, rfl⟩ := headersText_of_opt hheaders
  obtain ⟨userText, huserOk, hat, rfl⟩ : ∃ userText, UserText user ups userText
      ∧ AtFree (host ++ (portText ++ (displayParams (params.getD []) ++ (headerText ++ rest))))
      ∧ i₁ = userText
        ++ (host ++ (portText ++ (displayParams (params.getD []) ++ (headerText ++ rest)))) := by
    rcases parseUserinfo_cases hu with ⟨hat, rfl, rfl, rfl⟩ | ⟨userPart, rfl, hpart, hat, rfl, rfl⟩
    · exact ⟨[], .inl ⟨rfl, rfl, rfl⟩, hat, rfl⟩
    · exact ⟨userPart ++ ['@'], .inr ⟨userPart, hpart, rfl, rfl, rfl⟩, hat, by simp⟩
  refine ⟨userText, portText, headerText,
    ⟨hscheme, ?_, hat, hostOk, hportOk, hparamsOk, ?_, ?_, ?_⟩, rfl⟩
  · rw [hups]
    apply huserOk
  · rwa [hhs]
  · rwa [hhs]
  · rw [hhs, hups]
    rfl

theorem isHostChar_of_delimiter {c : Char} (h : c ∈ [':', ';', '?', ' ', '[', '\r', '\n']) :
  isHostChar c = false
  := by
  simp only [mem_cons, not_mem_nil, or_false] at h
  rcases h with rfl | rfl | rfl | rfl | rfl | rfl | rfl <;>
    rw [isHostChar, StdText.isAlphanumeric_ascii _ (by decide)] <;> rfl

theorem formatSipHost_of_isHost {host : Text} (h : IsHost host) :
  formatSipHost host = host
  := by
  rw [formatSipHost, if_neg]
  rintro ⟨hcolon, hhead⟩
  rcases h with ⟨x, -, -, rfl⟩ | ⟨-, hrun⟩
  · apply hhead rfl
  · have hc := hrun ':' hcolon
    rw [isHostChar_of_delimiter (by decide)] at hc
    cases hc

theorem display_sipUri (hscheme : uri.scheme = .sip ∨ uri.scheme = .sips) (hhost : IsHost uri.host)
    (tail : Text) :
  uri.display ++ tail = uri.scheme.asStr ++ ':' :: (uri.userDisplay ++ (uri.host
    ++ (uri.portDisplay ++ (displayParams uri.params ++ (uri.headersDisplay ++ tail)))))
  := by
  have hauth : uri.displayAuthority = uri.userDisplay ++ uri.host ++ uri.portDisplay := by
    rw [displayAuthority, formatSipHost_of_isHost hhost]
    rcases hscheme with hs | hs <;> rw [hs] <;> rfl
  have hdisplay : uri.display = uri.scheme.asStr ++ ':' :: uri.displayAuthority
      ++ displayParams uri.params ++ uri.headersDisplay := by
    rw [display]
    rcases hscheme with hs | hs <;> rw [hs] <;> rfl
  rw [hdisplay, hauth]
  simp

variable {userText portText headerText tail : Text}

theorem SipUriText.parseUserinfo_userDisplay (h : SipUriText uri userText portText headerText rest)
    {after : Text} (hat : AtFree after) :
  parseUserinfo (uri.userDisplay ++ after) = (after, uri.user, uri.userParams)
  := by
  rcases h.user with ⟨hnone, hups, -⟩ | ⟨userPart, hpart, -, hsome, hups⟩
  · rw [userDisplay, hnone, hups]
    apply parseUserinfo_of_atFree hat
  obtain ⟨hend, htake, hparams⟩ := userPart_display hpart
  rw [userDisplay, hsome, hups]
  rw [append_assoc, singleton_append, parseUserinfo_append hend hat, htake, hparams]

variable (h : SipUriText uri userText portText headerText rest) (htail : AtEnd tail)
include h htail

theorem SipUriText.opt_parsePort_portDisplay :
  Nom.opt parsePort (uri.portDisplay ++ (displayParams uri.params ++ (uri.headersDisplay ++ tail)))
    = .ok (displayParams uri.params ++ (uri.headersDisplay ++ tail), uri.port)
  := by
  have hhead := @head?_afterPort uri tail htail
  generalize displayParams uri.params ++ (uri.headersDisplay ++ tail) = after at hhead
  rcases h.port with ⟨hnone, -⟩ | ⟨n, ds, hsome, hlt, -, -⟩
  · rw [portDisplay, hnone]
    rw [nil_append, opt_eq_ok_none]
    refine ⟨rfl, ?_⟩
    cases after with
    | nil => exact ⟨_, rfl⟩
    | cons c after =>
    have hc : c ≠ ':' := by
      rintro rfl
      simpa using hhead ':' rfl
    exact ⟨⟨c :: after, .char⟩, by simp [parsePort, Nom.preceded, Nom.char, hc, bind, Except.bind]⟩
  · rw [portDisplay, hsome]
    rw [opt_eq_ok_some, parsePort_eq_ok]
    refine ⟨Decimal.display n, by simp, Decimal.display_ne_nil n,
      fun c hc => Decimal.isDigit_of_mem_display hc, ?_, Decimal.parse_display hlt⟩
    intro c hc
    have hmem := hhead c hc
    simp only [mem_cons, not_mem_nil, or_false] at hmem
    rcases hmem with rfl | rfl | rfl <;> rfl

theorem SipUriText.opt_parseUriHeaders_headersDisplay :
  ∃ headers, Nom.opt (Nom.preceded (Nom.char '?') parseUriHeaders) (uri.headersDisplay ++ tail)
      = .ok (tail, headers) ∧ headers.getD [] = uri.headers
  := by
  have hheaders := h.headers
  rw [headersDisplay]
  cases hhs : uri.headers with
  | nil =>
    refine ⟨none, opt_eq_ok_none.mpr ⟨rfl, ?_⟩, rfl⟩
    cases tail with
    | nil => exact ⟨_, rfl⟩
    | cons c tail =>
    obtain rfl := htail c rfl
    exact ⟨_, rfl⟩
  | cons p ps =>
    rw [hhs] at hheaders
    refine ⟨some (p :: ps), ?_, rfl⟩
    rw [opt_eq_ok_some, preceded_eq_ok]
    refine ⟨_, '?', char_eq_ok.mpr ⟨rfl, rfl⟩, ?_⟩
    apply parseUriHeaders_displayHeaders hheaders
    intro c hc
    rw [htail c hc]
    decide

theorem SipUriText.atFree_display :
  AtFree (uri.host ++ (uri.portDisplay ++ (displayParams uri.params
    ++ (uri.headersDisplay ++ tail))))
  := by
  have hdigits (ds : Text) (hds : ∀ c ∈ ds, c.isDigit = true) :
      ∀ c ∈ ':' :: ds, isUriEnd c = false ∧ c ≠ '@' := by
    intro c hc
    rcases mem_cons.mp hc with rfl | hc
    · decide
    have hd := hds c hc
    refine ⟨?_, ?_⟩
    · by_contra he
      simp only [isUriEnd, Bool.not_eq_false, Bool.or_eq_true, beq_iff_eq] at he
      rcases he with ((rfl | rfl) | rfl) | rfl <;> cases hd
    · rintro rfl
      cases hd
  have hport : ∀ c ∈ portText, isUriEnd c = false ∧ c ≠ '@' := by
    rcases h.port with ⟨-, rfl⟩ | ⟨n, ds, -, -, rfl, hds⟩
    · simp
    · apply hdigits ds hds
  have hdisplay : ∀ c ∈ uri.portDisplay, isUriEnd c = false ∧ c ≠ '@' := by
    rw [portDisplay]
    split
    · apply hdigits _ fun c hc => Decimal.isDigit_of_mem_display hc
    · simp
  have hat := h.atFree
  rw [atFree_append] at hat ⊢
  refine ⟨hat.1, hat.2.imp id fun hat => ?_⟩
  rw [atFree_append_neutral hport, atFree_append] at hat
  rw [atFree_append_neutral hdisplay, atFree_append]
  refine ⟨hat.1, hat.2.imp id fun hat => ?_⟩
  rw [headersDisplay]
  split
  · apply atFree_append_atEnd (x := []) (y := []) htail
    simp [AtFree]
  rename_i hne
  rcases h.headerText with ⟨hnil, -⟩ | ⟨-, rfl | rfl⟩
  · exact absurd hnil hne
  · have hskip := (atFree_append_neutral (x := ['?', '&']) (y := displayHeaders uri.headers ++ rest)
      (by simp [isUriEnd])).mp hat
    apply (atFree_append_neutral (x := ['?']) (by simp [isUriEnd])).mpr
    apply atFree_append_atEnd htail hskip
  · apply atFree_append_atEnd htail hat

theorem parseSipUri_display :
  parseSipUri (uri.display ++ tail) = .ok (tail, uri)
  := by
  obtain ⟨headers, hheaders, hgetD⟩ := h.opt_parseUriHeaders_headersDisplay htail
  rw [display_sipUri h.scheme h.host, parseSipUri_eq_ok]
  refine ⟨uri.scheme, _, uri.user, uri.userParams, _, uri.host, _, uri.port, _, some uri.params, _,
    headers, h.scheme, rfl, h.parseUserinfo_userDisplay (h.atFree_display htail), ?_,
    h.opt_parsePort_portDisplay htail, ?_, hheaders, ?_⟩
  · rw [parseHost_eq_ok]
    rcases h.host with ⟨x, hne, hx, hhost⟩ | ⟨hne, hrun⟩
    · exact .inl ⟨x, by simp [hhost], hne, hx, hhost⟩
    refine .inr ⟨hne, rfl, hrun, ?_⟩
    intro c hc
    apply isHostChar_of_delimiter
    have hmem := head?_afterHost htail c hc
    simp only [mem_cons] at hmem ⊢
    tauto
  · rw [opt_eq_ok_some]
    apply parseUriParams_displayParams h.params
    intro c hc
    have hmem := head?_afterParams htail c hc
    simp only [mem_cons, not_mem_nil, or_false] at hmem
    rcases hmem with rfl | rfl <;> decide
  · rw [hgetD, setExtras]
    have hextras := h.extras
    obtain ⟨scheme, user, host, port, params, extras⟩ := uri
    simp only [Option.getD_some, mk.injEq, true_and]
    apply hextras

end

/-! ### `tel:` URIs -/

/-- A `tel:` URI as the parser stores it. -/
structure IsTelUri (uri : SipUri) : Prop where
  scheme : uri.scheme = .tel
  user : ∃ subscriber, uri.user = some subscriber ∧ subscriber ≠ []
    ∧ ∀ c ∈ subscriber, isSubscriberChar c = true
  host : uri.host
    = ((uri.params.find? fun p => p.1 == "phone-context".toList).bind Prod.snd).getD []
  port : uri.port = none
  params : ∀ p ∈ uri.params, IsParam isParamValueChar p
  extras : uri.extras = none

theorem isTelUri_of_parseTelUri {input rest : Text} (h : parseTelUri input = .ok (rest, uri)) :
  IsTelUri uri
  := by
  simp only [parseTelUri, bind_eq_ok, Prod.exists] at h
  obtain ⟨r₁, subscriber, h₁, r₂, params, h₂, h⟩ := h
  obtain ⟨hne, -, hsub, -⟩ := takeWhile1_eq_ok.mp h₁
  cases h
  refine ⟨rfl, ⟨subscriber, rfl, hne, hsub⟩, rfl, rfl, ?_, rfl⟩
  cases params with
  | none => simp
  | some ps => apply (eq_displayParams_of_parseUriParams (opt_eq_ok_some.mp h₂)).2

theorem parseTelUri_display (h : IsTelUri uri) {tail : Text} (htail : AtEnd tail) :
  ∃ after, uri.display ++ tail = "tel:".toList ++ after ∧ parseTelUri after = .ok (tail, uri)
  := by
  obtain ⟨scheme, user, host, port, params, extras⟩ := uri
  obtain ⟨hscheme, ⟨subscriber, huser, hne, hsub⟩, hhost, hport, hparams, hextras⟩ := h
  dsimp only at hscheme huser hhost hport hparams hextras
  subst hscheme huser hhost hport hextras
  refine ⟨subscriber ++ (displayParams params ++ tail), ?_, ?_⟩
  · simp [display, headers, asStr]
  have hrun : Nom.takeWhile1 isSubscriberChar (subscriber ++ (displayParams params ++ tail))
      = .ok (displayParams params ++ tail, subscriber) := by
    rw [takeWhile1_eq_ok]
    refine ⟨hne, rfl, hsub, ?_⟩
    intro c hc
    cases params with
    | nil =>
      rw [htail c hc]
      rfl
    | cons p ps =>
      cases hc
      rfl
  have hps : Nom.opt parseUriParams (displayParams params ++ tail)
      = .ok (tail, some params) := by
    rw [opt_eq_ok_some]
    apply parseUriParams_displayParams hparams
    intro c hc
    rw [htail c hc]
    decide
  simp only [parseTelUri, bind_eq_ok, Prod.exists]
  exact ⟨_, _, hrun, _, _, hps, rfl⟩

/-! ### Other absolute URIs -/

/-- Another absolute URI as the parser stores it: the printed opaque part is cut into its host
and port again. -/
structure IsAbsoluteUri (uri : SipUri) : Prop where
  scheme : ∃ token, uri.scheme = .other token ∧ isSchemeToken token = true
    ∧ token ∉ ["tel".toList, "sip".toList, "sips".toList]
  user : uri.user = none
  opaquePart_ne_nil : uri.host ++ uri.portDisplay ≠ []
  opaquePart : ∀ c ∈ uri.host ++ uri.portDisplay, isOpaqueEnd c = false
  split : splitOpaquePort (uri.host ++ uri.portDisplay) = (uri.host, uri.port)
  params : uri.params = []
  extras : uri.extras = none

abbrev displayPort (port : Option ℕ) : Text :=
  match port with
  | some port => ':' :: Decimal.display port
  | none => []

structure IsPortText (text : Text) (n : ℕ) : Prop where
  ne_nil : text ≠ []
  digits : text.all Char.isDigit
  parse : Decimal.parse (2 ^ 16) text = some n

theorem IsPortText.colon_notMem {digits : Text} {n : ℕ} (h : IsPortText digits n) :
  ':' ∉ digits
  := by
  intro hmem
  cases all_eq_true.mp h.digits _ hmem

theorem isPortText_display {n : ℕ} (h : n < 2 ^ 16) :
  IsPortText (Decimal.display n) n
  := by
  refine ⟨Decimal.display_ne_nil n, ?_, Decimal.parse_display h⟩
  rw [all_eq_true]
  intro c hc
  apply Decimal.isDigit_of_mem_display hc

theorem splitOpaquePort_append (host : Text) {digits : Text} {n : ℕ} (h : IsPortText digits n) :
  splitOpaquePort (host ++ ':' :: digits) = (host, some n)
  := by
  rw [splitOpaquePort, Slice.rsplitOnce_append host h.colon_notMem]
  dsimp only
  rw [if_pos ⟨h.ne_nil, h.digits⟩, h.parse]

theorem splitOpaquePort_cases (opaquePart : Text) :
  (splitOpaquePort opaquePart = (opaquePart, none)
      ∧ ∀ host digits n, opaquePart = host ++ ':' :: digits → ¬ IsPortText digits n)
    ∨ ∃ host digits n, opaquePart = host ++ ':' :: digits ∧ IsPortText digits n
      ∧ splitOpaquePort opaquePart = (host, some n)
  := by
  by_cases hport : ∃ host digits n, opaquePart = host ++ ':' :: digits ∧ IsPortText digits n
  · obtain ⟨host, digits, n, rfl, hdigits⟩ := hport
    exact .inr ⟨host, digits, n, rfl, hdigits, splitOpaquePort_append host hdigits⟩
  refine .inl ⟨?_, fun host digits n heq h => hport ⟨host, digits, n, heq, h⟩⟩
  by_cases hcolon : ':' ∈ opaquePart
  · obtain ⟨x, y, rfl, hy⟩ := Slice.exists_of_mem_last hcolon
    rw [splitOpaquePort, Slice.rsplitOnce_append x hy]
    dsimp only
    split
    · rename_i hdigits
      split
      · rename_i n hn
        exact absurd ⟨x, y, n, rfl, hdigits.1, hdigits.2, hn⟩ hport
      · rfl
    · rfl
  · rw [splitOpaquePort, Slice.rsplitOnce_of_not_mem hcolon]

theorem splitOpaquePort_display {opaquePart host : Text} {port : Option ℕ}
    (h : splitOpaquePort opaquePart = (host, port)) :
  splitOpaquePort (host ++ displayPort port) = (host, port)
    ∧ (opaquePart ≠ [] → host ++ displayPort port ≠ [])
    ∧ ((∀ c ∈ opaquePart, isOpaqueEnd c = false) →
      ∀ c ∈ host ++ displayPort port, isOpaqueEnd c = false)
  := by
  rcases splitOpaquePort_cases opaquePart with ⟨heq, -⟩ | ⟨_, digits, n, rfl, hdigits, heq⟩
  · cases heq.symm.trans h
    simpa [displayPort] using heq
  cases heq.symm.trans h
  have hlt := (Decimal.parse_eq_some hdigits.parse).2.2
  refine ⟨splitOpaquePort_append host (isPortText_display hlt), by simp, ?_⟩
  intro hend c hc
  rcases mem_append.mp hc with hc | hc
  · apply hend c
    simp [hc]
  rcases mem_cons.mp hc with rfl | hc
  · rfl
  have hd := Decimal.isDigit_of_mem_display hc
  by_contra he
  simp only [isOpaqueEnd, Bool.not_eq_false, Bool.or_eq_true, beq_iff_eq] at he
  rcases he with ((((rfl | rfl) | rfl) | rfl) | rfl) | rfl <;> cases hd

theorem fromToken_of_not_mem {token : Text}
    (h : token ∉ ["tel".toList, "sip".toList, "sips".toList]) :
  fromToken token = .other token
  := by
  simp only [mem_cons, not_mem_nil, or_false, not_or] at h
  rw [fromToken, if_neg h.2.1, if_neg h.2.2, if_neg h.1]

theorem not_mem_of_isSchemeToken {token : Text} (h : isSchemeToken token = true) {c : Char}
    (hc : c ∈ token) :
  c ∉ [':', '\r', '\n']
  := by
  have hchar : c.isAlphanum = true ∨ c = '+' ∨ c = '-' ∨ c = '.' := by
    cases token with
    | nil => cases hc
    | cons d ds =>
    simp only [isSchemeToken, Bool.and_eq_true, all_eq_true, Bool.or_eq_true, beq_iff_eq] at h
    rcases mem_cons.mp hc with rfl | hc
    · apply Or.inl
      simp [Char.isAlphanum, h.1]
    · have := h.2 c hc
      tauto
  simp only [mem_cons, not_mem_nil, or_false]
  rintro (rfl | rfl | rfl) <;> revert hchar <;> decide

theorem exists_of_parseAbsoluteUri {input rest : Text}
    (h : parseAbsoluteUri input = .ok (rest, uri)) :
  ∃ token opaquePart, input = token ++ ':' :: (opaquePart ++ rest) ∧ ':' ∉ token
    ∧ isSchemeToken token = true ∧ opaquePart ≠ [] ∧ (∀ c ∈ opaquePart, isOpaqueEnd c = false)
    ∧ uri = ⟨fromToken token, none, (splitOpaquePort opaquePart).1,
      (splitOpaquePort opaquePart).2, [], none⟩
  := by
  rw [parseAbsoluteUri] at h
  split at h
  · cases h
  rename_i token after hsplit
  obtain ⟨rfl, hcolon⟩ := Slice.splitOnce_eq_some_iff.mp hsplit
  dsimp only at h
  split_ifs at h with hnil htoken hne
  cases h
  refine ⟨token, after.takeWhile fun c => !isOpaqueEnd c, by rw [takeWhile_append_dropWhile],
    hcolon, by simpa using htoken, hne, ?_, rfl⟩
  intro c hc
  simpa using mem_takeWhile_imp hc

theorem isAbsoluteUri_of_parseAbsoluteUri {input rest : Text}
    (hscheme : ∀ token ∈ ["tel".toList, "sip".toList, "sips".toList], ∀ after,
      input ≠ token ++ ':' :: after) (h : parseAbsoluteUri input = .ok (rest, uri)) :
  IsAbsoluteUri uri
  := by
  obtain ⟨token, opaquePart, rfl, -, htoken, hne, hopaque, rfl⟩ := exists_of_parseAbsoluteUri h
  have hknown : token ∉ ["tel".toList, "sip".toList, "sips".toList] := by
    intro hmem
    apply hscheme token hmem _ rfl
  rw [fromToken_of_not_mem hknown]
  obtain ⟨hsplit, hnil, hend⟩ := @splitOpaquePort_display opaquePart _ _ rfl
  exact ⟨⟨token, rfl, htoken, hknown⟩, rfl, hnil hne, hend hopaque, hsplit, rfl, rfl⟩

theorem display_absoluteUri (h : IsAbsoluteUri uri) (tail : Text) :
  uri.display ++ tail = uri.scheme.asStr ++ ':' :: (uri.host ++ uri.portDisplay ++ tail)
  := by
  obtain ⟨scheme, user, host, port, params, extras⟩ := uri
  obtain ⟨⟨token, hscheme, -⟩, huser, -, -, -, hparams, hextras⟩ := h
  subst hscheme huser hparams hextras
  cases port <;>
    simp [display, displayAuthority, portDisplay, headers, asStr,
      displayParams]

theorem parseAbsoluteUri_display (h : IsAbsoluteUri uri) {tail : Text} (htail : AtEnd tail) :
  parseAbsoluteUri (uri.display ++ tail) = .ok (tail, uri)
  := by
  have hdisplay := display_absoluteUri h tail
  obtain ⟨scheme, user, host, port, params, extras⟩ := uri
  obtain ⟨⟨token, hscheme, htoken, hknown⟩, huser, hne, hend, hsplit, hparams, hextras⟩ := h
  subst hscheme huser hparams hextras
  change _ = token ++ ':' :: (host ++ displayPort port ++ tail) at hdisplay
  have hcolon : ':' ∉ token := fun hmem => not_mem_of_isSchemeToken htoken hmem (by decide)
  have hnil : token ≠ [] := by
    rintro rfl
    cases htoken
  have hspan := Slice.takeWhile_dropWhile_append (p := fun c => !isOpaqueEnd c)
    (a := host ++ displayPort port) (r := tail)
    (fun c hc => by simpa using hend c hc) (fun c hc => by rw [htail c hc]; rfl)
  rw [hdisplay, parseAbsoluteUri, Slice.splitOnce_append hcolon]
  dsimp only
  have hne' : host ++ displayPort port ≠ [] := hne
  have hsplit' : splitOpaquePort (host ++ displayPort port) = (host, port) := hsplit
  rw [if_neg hnil, if_neg (by simp [htoken]), hspan.1, hspan.2, if_neg hne', hsplit',
    fromToken_of_not_mem hknown]

/-! ### What is printed for an opaque part -/

theorem append_displayPort_eq_iff {opaquePart host : Text} {port : Option ℕ}
    (h : splitOpaquePort opaquePart = (host, port)) :
  host ++ displayPort port = opaquePart
    ↔ ∀ front digits n, opaquePart = front ++ ':' :: digits → IsPortText digits n →
      digits = Decimal.display n
  := by
  rcases splitOpaquePort_cases opaquePart with ⟨heq, hnone⟩ | ⟨_, digits, n, rfl, hdigits, heq⟩
  · cases heq.symm.trans h
    refine ⟨fun _ front digits n hsplit hport => absurd hport (hnone front digits n hsplit), ?_⟩
    intro _
    apply append_nil
  · cases heq.symm.trans h
    constructor
    · intro hprinted front digits' n' hsplit hport
      rw [hsplit, splitOpaquePort_append front hport] at h
      cases h
      cases append_cancel_left hsplit
      exact (cons.inj (append_cancel_left hprinted)).2.symm
    · intro hall
      exact congrArg (host ++ ':' :: ·) (hall host digits n rfl hdigits).symm

/-- A URI of a scheme that is not known is printed as it was read if and only if its port, if it
has one, is written the way ports are printed. -/
theorem reprinted_iff {input rest : Text}
    (hscheme : ∀ token ∈ ["tel".toList, "sip".toList, "sips".toList], ∀ after,
      input ≠ token ++ ':' :: after) (h : parseAbsoluteUri input = .ok (rest, uri)) :
  ∃ token opaquePart, input = token ++ ':' :: (opaquePart ++ rest) ∧ ':' ∉ token
    ∧ (uri.display = token ++ ':' :: opaquePart
      ↔ ∀ front digits n, opaquePart = front ++ ':' :: digits → IsPortText digits n →
        digits = Decimal.display n)
  := by
  have habsolute := isAbsoluteUri_of_parseAbsoluteUri hscheme h
  obtain ⟨token, opaquePart, rfl, hcolon, -, -, -, rfl⟩ := exists_of_parseAbsoluteUri h
  refine ⟨token, opaquePart, rfl, hcolon, ?_⟩
  have hknown : token ∉ ["tel".toList, "sip".toList, "sips".toList] := by
    intro hmem
    apply hscheme token hmem _ rfl
  have hdisplay := display_absoluteUri habsolute []
  rw [append_nil, append_nil] at hdisplay
  rw [← append_displayPort_eq_iff rfl, hdisplay, fromToken_of_not_mem hknown]
  change token ++ ':' :: (_ ++ displayPort _) = _ ↔ _
  rw [append_cancel_left_eq, cons.injEq]
  exact and_iff_right rfl

/-- An opaque part that ends in a port with leading zeros is printed without them. -/
theorem leadingZeros_not_reprinted :
  ∃ uri, parseAbsoluteUri "urn:a:007".toList = .ok ([], uri) ∧ uri.display = "urn:a:7".toList
  := ⟨⟨.other "urn".toList, none, "a".toList, some 7, [], none⟩, by decide, by decide⟩

/-- An opaque part with a port that is written the way ports are printed. -/
theorem reprinted_of_service :
  let uri : SipUri := ⟨.other "urn".toList, none, "a".toList, some 7, [], none⟩
  parseAbsoluteUri "urn:a:7>".toList = .ok (">".toList, uri) ∧ uri.display = "urn:a:7".toList
    ∧ ∃ token opaquePart, "urn:a:7>".toList = token ++ ':' :: (opaquePart ++ ">".toList)
      ∧ ':' ∉ token
      ∧ (uri.display = token ++ ':' :: opaquePart
        ↔ ∀ front digits n, opaquePart = front ++ ':' :: digits → IsPortText digits n →
          digits = Decimal.display n)
  := ⟨by decide, by decide, reprinted_iff (by simp) (by decide)⟩

/-! ### URIs -/

section

variable [StdText]

/-- A URI as the parser stores it. -/
inductive IsUri (uri : SipUri) : Prop where
  | sip {userText portText headerText rest : Text}
    (h : SipUriText uri userText portText headerText rest)
  | tel (h : IsTelUri uri)
  | absolute (h : IsAbsoluteUri uri)

theorem parseUri_tel (after : Text) :
  parseUri ("tel:".toList ++ after) = parseTelUri after
  := by
  simp [parseUri, List.dropPrefix?]

theorem parseUri_sip {scheme : Scheme} (h : scheme = .sip ∨ scheme = .sips) (after : Text) :
  parseUri (scheme.asStr ++ ':' :: after) = parseSipUri (scheme.asStr ++ ':' :: after)
  := by
  rcases h with rfl | rfl <;> simp [parseUri, asStr, List.dropPrefix?]

theorem parseUri_absolute {input : Text}
    (h : ∀ token ∈ ["tel".toList, "sip".toList, "sips".toList], ∀ after,
      input ≠ token ++ ':' :: after) :
  parseUri input = parseAbsoluteUri input
  := by
  rw [parseUri]
  split
  · rename_i rest hdrop
    obtain ⟨p, rfl, hp⟩ := List.dropPrefix?_eq_some_iff.mp hdrop
    cases beq_iff_eq.mp hp
    exact absurd rfl (h "tel".toList (by simp) rest)
  · rw [if_pos]
    simp only [Bool.and_eq_true, Bool.not_eq_true', Bool.eq_false_iff]
    constructor
    · intro hpre
      obtain ⟨after, rfl⟩ := isPrefixOf_iff_prefix.mp hpre
      apply h "sip".toList (by simp) after rfl
    · intro hpre
      obtain ⟨after, rfl⟩ := isPrefixOf_iff_prefix.mp hpre
      apply h "sips".toList (by simp) after rfl

theorem parseUri_cases {input rest : Text} (h : parseUri input = .ok (rest, uri)) :
  (∃ userText portText headerText, SipUriText uri userText portText headerText rest
      ∧ input = uri.scheme.asStr ++ ':' :: (userText ++ (uri.host ++ (portText
        ++ (displayParams uri.params ++ (headerText ++ rest))))))
    ∨ ((IsTelUri uri ∨ IsAbsoluteUri uri) ∧ ∀ scheme : Scheme, scheme = .sip ∨ scheme = .sips →
      ∀ after, input ≠ scheme.asStr ++ ':' :: after)
  := by
  by_cases hsip : ∃ scheme : Scheme, (scheme = .sip ∨ scheme = .sips)
      ∧ ∃ after, input = scheme.asStr ++ ':' :: after
  · obtain ⟨scheme, hscheme, after, rfl⟩ := hsip
    rw [parseUri_sip hscheme] at h
    apply Or.inl (exists_sipUriText h)
  refine .inr ⟨?_, fun scheme hscheme after heq => hsip ⟨scheme, hscheme, after, heq⟩⟩
  by_cases htel : ∃ after, input = "tel:".toList ++ after
  · obtain ⟨after, rfl⟩ := htel
    rw [parseUri_tel] at h
    apply Or.inl (isTelUri_of_parseTelUri h)
  have hother : ∀ token ∈ ["tel".toList, "sip".toList, "sips".toList], ∀ after,
      input ≠ token ++ ':' :: after := by
    intro token htoken after heq
    simp only [mem_cons, not_mem_nil, or_false] at htoken
    rcases htoken with rfl | rfl | rfl
    · apply htel ⟨after, heq⟩
    · apply hsip ⟨.sip, .inl rfl, after, heq⟩
    · apply hsip ⟨.sips, .inr rfl, after, heq⟩
  rw [parseUri_absolute hother] at h
  apply Or.inr (isAbsoluteUri_of_parseAbsoluteUri hother h)

theorem isUri_of_parseUri {input rest : Text} (h : parseUri input = .ok (rest, uri)) :
  IsUri uri
  := by
  rcases parseUri_cases h with ⟨_, _, _, htext, -⟩ | ⟨htel | habs, -⟩
  · apply IsUri.sip htext
  · apply IsUri.tel htel
  · apply IsUri.absolute habs

theorem parseUri_display (h : IsUri uri) {tail : Text} (htail : AtEnd tail) :
  parseUri (uri.display ++ tail) = .ok (tail, uri)
  := by
  cases h with
  | sip h =>
    have hread := parseSipUri_display h htail
    rw [display_sipUri h.scheme h.host] at hread ⊢
    rw [parseUri_sip h.scheme, hread]
  | tel h =>
    obtain ⟨after, hdisplay, hread⟩ := parseTelUri_display h htail
    rw [hdisplay, parseUri_tel, hread]
  | absolute h =>
    rw [parseUri_absolute, parseAbsoluteUri_display h htail]
    intro known hmem after heq
    obtain ⟨token, hscheme, htoken, hknown⟩ := h.scheme
    rw [display_absoluteUri h, hscheme] at heq
    have htoken' : ':' ∉ token := fun hc => not_mem_of_isSchemeToken htoken hc (by decide)
    have hknown' : ':' ∉ known := by
      simp only [mem_cons, not_mem_nil, or_false] at hmem
      rcases hmem with rfl | rfl | rfl <;> decide
    obtain ⟨rfl, -⟩ := Lines.append_cons_inj htoken' hknown' heq
    apply hknown hmem

/-- A URI that is the whole of a text is read back from what is printed for it. -/
theorem parseUriComplete_display {input : Text} (h : parseUriComplete input = .ok uri) :
  parseUriComplete uri.display = .ok uri
  := by
  rw [parseUriComplete] at h
  split at h
  · rename_i hparse
    cases h
    have hread := @parseUri_display _ _ (isUri_of_parseUri hparse) [] (by rintro c ⟨⟩)
    rw [append_nil] at hread
    rw [parseUriComplete, hread]
  · cases h
  · cases h

end

def fullUri : SipUri where
  scheme := .sips
  user := some "+1".toList
  host := "[::1]".toList
  port := some 5060
  params := [("lr".toList, none), ("a".toList, some "b".toList)]
  extras := some ⟨[("c".toList, some "d".toList), ("e".toList, none)],
    [("phone-context".toList, some "x".toList)]⟩

theorem fullUri_reread :
  @parseUriComplete StdText.ascii fullUri.display = .ok fullUri
  := @parseUriComplete_display fullUri StdText.ascii
    "sips:+1;phone-context=x@[::1]:05060;lr;a=b?&c=d&e".toList (by decide +kernel)

end Siphon
