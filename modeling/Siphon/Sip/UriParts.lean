import Siphon.Library.Lines
import Siphon.Sip.Parser

/-!
# The parts of a URI

For the parsers of parameters, URI headers, numbers and user information, the texts they
accept and the remainder they leave, and that they read back what is printed for their
result.
-/

namespace Siphon

open List Nom Decimal

/-! ### Parameters -/

/-- The characters of a parameter's name are those of its value but `=`. -/
def nameCharOf (valueChar : Char → Bool) (c : Char) : Bool :=
  c != '=' && valueChar c

/-- A parameter with the given characters in its value. -/
structure IsParam (valueChar : Char → Bool) (p : Param) : Prop where
  name_ne_nil : p.1 ≠ []
  name : ∀ c ∈ p.1, nameCharOf valueChar c = true
  value : ∀ v ∈ p.2, ∀ c ∈ v, valueChar c = true

/-- The parser of `name` or `name=value`. -/
abbrev paramParser (valueChar : Char → Bool) : Nom.Parser Param :=
  Nom.pair (Nom.takeWhile1 (nameCharOf valueChar))
    (Nom.opt (Nom.preceded (Nom.char '=') (Nom.takeWhile valueChar)))

section

variable {valueChar : Char → Bool} {input rest : Text} {p : Param}

/-- A parameter is read as far as its characters go. -/
theorem paramParser_eq_ok (heq : valueChar '=' = true) :
  paramParser valueChar input = .ok (rest, p)
    ↔ input = displayParam p ++ rest ∧ IsParam valueChar p
      ∧ ∀ c ∈ rest.head?, valueChar c = false
  := by
  obtain ⟨name, value⟩ := p
  rw [paramParser, pair_eq_ok]
  constructor
  · rintro ⟨mid, hname, hvalue⟩
    obtain ⟨hne, rfl, hn, hstop⟩ := takeWhile1_eq_ok.mp hname
    cases value with
    | none =>
      obtain ⟨rfl, e, he⟩ := opt_eq_ok_none.mp hvalue
      refine ⟨rfl, ⟨hne, hn, by simp⟩, ?_⟩
      intro c hc
      have hnot := hstop c hc
      cases rest with
      | nil => cases hc
      | cons d rest =>
      cases hc
      by_cases hd : c = '='
      · subst hd
        simp [Nom.preceded, Nom.char, Nom.takeWhile, bind, Except.bind] at he
      · simpa [nameCharOf, hd] using hnot
    | some v =>
      rw [opt_eq_ok_some, preceded_eq_ok] at hvalue
      obtain ⟨after, c, hc, hv⟩ := hvalue
      obtain ⟨rfl, -⟩ := char_eq_ok.mp hc
      obtain ⟨rfl, hv, hstop'⟩ := takeWhile_eq_ok.mp hv
      exact ⟨by simp [displayParam], ⟨hne, hn, by simpa using hv⟩, hstop'⟩
  · rintro ⟨rfl, ⟨hne, hn, hv⟩, hstop⟩
    cases value with
    | none =>
      refine ⟨rest, takeWhile1_eq_ok.mpr ⟨hne, rfl, hn, ?_⟩, ?_⟩
      · intro c hc
        simp [nameCharOf, hstop c hc]
      rw [opt_eq_ok_none]
      refine ⟨rfl, ?_⟩
      cases rest with
      | nil => exact ⟨_, rfl⟩
      | cons c rest =>
      have hc : c ≠ '=' := by
        rintro rfl
        have := hstop '=' rfl
        simp [heq] at this
      exact ⟨⟨c :: rest, .char⟩, by simp [Nom.preceded, Nom.char, hc, bind, Except.bind]⟩
    | some v =>
      refine ⟨'=' :: (v ++ rest), takeWhile1_eq_ok.mpr ⟨hne, by simp [displayParam], hn, ?_⟩, ?_⟩
      · rintro c ⟨⟩
        simp [nameCharOf]
      rw [opt_eq_ok_some, preceded_eq_ok]
      refine ⟨v ++ rest, '=', char_eq_ok.mpr ⟨rfl, rfl⟩, ?_⟩
      rw [takeWhile_eq_ok]
      exact ⟨rfl, hv v rfl, hstop⟩

theorem IsParam.displayParam_ne_nil (h : IsParam valueChar p) :
  displayParam p ≠ []
  := by
  rw [displayParam]
  split
  · simp
  · apply h.name_ne_nil

theorem IsParam.mem_displayParam (heq : valueChar '=' = true) (h : IsParam valueChar p) :
  ∀ c ∈ displayParam p, valueChar c = true
  := by
  have hname : ∀ c ∈ p.1, valueChar c = true := by
    intro c hc
    have hn := h.name c hc
    rw [nameCharOf, Bool.and_eq_true] at hn
    apply hn.2
  intro c hc
  rw [displayParam] at hc
  split at hc
  · rename_i v hv
    rcases mem_append.mp hc with hc | hc
    · apply hname c hc
    · rcases mem_cons.mp hc with rfl | hc
      · apply heq
      · apply h.value v hv c hc
  · apply hname c hc

end

variable {input rest : Text} {ps : List Param}

theorem eq_displayParams_of_parseUriParams (h : parseUriParams input = .ok (rest, ps)) :
  input = displayParams ps ++ rest ∧ ∀ p ∈ ps, IsParam isParamValueChar p
  := by
  induction ps generalizing input with
  | nil =>
    rcases many0_eq_ok.mp h with ⟨-, rfl, -⟩ | ⟨_, _, _, hcons, -⟩
    · simp [displayParams]
    · cases hcons
  | cons p ps ih =>
    rcases many0_eq_ok.mp h with ⟨hnil, -⟩ | ⟨mid, q, qs, hcons, hp, -, hps⟩
    · cases hnil
    cases hcons
    obtain ⟨after, c, hc, hp⟩ := preceded_eq_ok.mp hp
    obtain ⟨rfl, -⟩ := char_eq_ok.mp hc
    obtain ⟨rfl, hparam, -⟩ := (paramParser_eq_ok rfl).mp hp
    obtain ⟨rfl, hrest⟩ := ih hps
    refine ⟨by simp [displayParams], ?_⟩
    intro q hq
    rcases mem_cons.mp hq with rfl | hq
    · apply hparam
    · apply hrest q hq

theorem parseUriParams_displayParams (hps : ∀ p ∈ ps, IsParam isParamValueChar p)
    (hrest : ∀ c ∈ rest.head?, isParamValueChar c = false ∧ c ≠ ';') :
  parseUriParams (displayParams ps ++ rest) = .ok (rest, ps)
  := by
  induction ps with
  | nil =>
    refine many0_eq_ok.mpr (.inl ⟨rfl, rfl, ?_⟩)
    cases rest with
    | nil => exact ⟨_, rfl⟩
    | cons c rest =>
    have hc := (hrest c rfl).2
    exact ⟨⟨c :: rest, .char⟩,
      by simp [displayParams, Nom.preceded, Nom.char, hc, bind, Except.bind]⟩
  | cons p ps ih =>
    have htail := ih fun q hq => hps q (mem_cons_of_mem _ hq)
    have hsplit : displayParams (p :: ps) ++ rest
        = ';' :: (displayParam p ++ (displayParams ps ++ rest)) := by simp [displayParams]
    refine many0_eq_ok.mpr (.inr ⟨displayParams ps ++ rest, p, ps, rfl, ?_, ?_, htail⟩)
    · rw [hsplit, preceded_eq_ok]
      refine ⟨_, ';', char_eq_ok.mpr ⟨rfl, rfl⟩, (paramParser_eq_ok rfl).mpr
        ⟨rfl, hps p mem_cons_self, ?_⟩⟩
      intro c hc
      cases ps with
      | nil => apply (hrest c hc).1
      | cons q qs =>
      cases hc
      rfl
    · simp only [hsplit, length_cons, length_append]
      omega

/-! ### URI headers -/

abbrev displayHeaders (hs : List Param) : Text :=
  ['&'].intercalate (hs.map displayParam)

theorem displayHeaders_cons (h : Param) (hs : List Param) :
  displayHeaders (h :: hs) = displayParam h ++ hs.flatMap fun k => '&' :: displayParam k
  := by
  induction hs generalizing h with
  | nil => simp [displayHeaders]
  | cons k hs ih =>
  have hk := ih k
  simp only [displayHeaders, map_cons] at hk ⊢
  rw [intercalate_cons_cons, hk]
  simp

abbrev headerParser : Nom.Parser Param :=
  Nom.preceded (Nom.opt (Nom.char '&')) (paramParser isHeaderValueChar)

theorem headerParser_eq_ok {p : Param} :
  headerParser input = .ok (rest, p)
    ↔ (input = '&' :: displayParam p ++ rest ∨ input = displayParam p ++ rest)
      ∧ IsParam isHeaderValueChar p ∧ ∀ c ∈ rest.head?, isHeaderValueChar c = false
  := by
  rw [headerParser, preceded_eq_ok]
  constructor
  · rintro ⟨mid, o, ho, hp⟩
    obtain ⟨rfl, hparam, hstop⟩ := (paramParser_eq_ok rfl).mp hp
    refine ⟨?_, hparam, hstop⟩
    cases o with
    | none =>
      obtain ⟨rfl, -⟩ := opt_eq_ok_none.mp ho
      apply Or.inr rfl
    | some c =>
      obtain ⟨rfl, -⟩ := char_eq_ok.mp (opt_eq_ok_some.mp ho)
      apply Or.inl rfl
  · rintro ⟨rfl | rfl, hparam, hstop⟩
    · refine ⟨_, some '&', opt_eq_ok_some.mpr (char_eq_ok.mpr ⟨rfl, rfl⟩), ?_⟩
      apply (paramParser_eq_ok rfl).mpr ⟨rfl, hparam, hstop⟩
    refine ⟨_, none, opt_eq_ok_none.mpr ⟨rfl, ?_⟩,
      (paramParser_eq_ok rfl).mpr ⟨rfl, hparam, hstop⟩⟩
    obtain ⟨c, t, ht⟩ := exists_cons_of_ne_nil hparam.displayParam_ne_nil
    have hc : c ≠ '&' := by
      rintro rfl
      have hvalue := hparam.mem_displayParam rfl '&' (by simp [ht])
      simp [isHeaderValueChar] at hvalue
    exact ⟨⟨c :: (t ++ rest), .char⟩, by simp [ht, Nom.char, hc]⟩

variable {hs : List Param}

theorem eq_flatMap_of_parseUriHeaders (hinput : ∀ c ∈ input.head?, isHeaderValueChar c = false)
    (h : parseUriHeaders input = .ok (rest, hs)) :
  input = (hs.flatMap fun k => '&' :: displayParam k) ++ rest
    ∧ ∀ p ∈ hs, IsParam isHeaderValueChar p
  := by
  induction hs generalizing input with
  | nil =>
    rcases many0_eq_ok.mp h with ⟨-, rfl, -⟩ | ⟨_, _, _, hcons, -⟩
    · simp
    · cases hcons
  | cons p hs ih =>
    rcases many0_eq_ok.mp h with ⟨hnil, -⟩ | ⟨mid, q, qs, hcons, hp, -, hhs⟩
    · cases hnil
    cases hcons
    obtain ⟨hsplit, hparam, hstop⟩ := headerParser_eq_ok.mp hp
    obtain ⟨rfl, hrest⟩ := ih hstop hhs
    refine ⟨?_, ?_⟩
    · rcases hsplit with rfl | rfl
      · simp
      -- a header that is not after a `&` would have been part of the one before it
      obtain ⟨c, t, ht⟩ := exists_cons_of_ne_nil hparam.displayParam_ne_nil
      have hvalue := hparam.mem_displayParam rfl c (by simp [ht])
      have hnot := hinput c (by simp [ht])
      rw [hvalue] at hnot
      cases hnot
    · intro q hq
      rcases mem_cons.mp hq with rfl | hq
      · apply hparam
      · apply hrest q hq

theorem eq_displayHeaders_of_parseUriHeaders (h : parseUriHeaders input = .ok (rest, hs)) :
  (∀ p ∈ hs, IsParam isHeaderValueChar p)
    ∧ (hs = [] ∧ input = rest
      ∨ hs ≠ [] ∧ (input = '&' :: displayHeaders hs ++ rest ∨ input = displayHeaders hs ++ rest))
  := by
  rcases many0_eq_ok.mp h with ⟨rfl, rfl, -⟩ | ⟨mid, p, ps, rfl, hp, -, hps⟩
  · exact ⟨by simp, .inl ⟨rfl, rfl⟩⟩
  obtain ⟨hsplit, hparam, hstop⟩ := headerParser_eq_ok.mp hp
  obtain ⟨rfl, hrest⟩ := eq_flatMap_of_parseUriHeaders hstop hps
  refine ⟨?_, .inr ⟨by simp, ?_⟩⟩
  · intro q hq
    rcases mem_cons.mp hq with rfl | hq
    · apply hparam
    · apply hrest q hq
  · rw [displayHeaders_cons]
    rcases hsplit with rfl | rfl
    · apply Or.inl
      simp
    · apply Or.inr
      simp

theorem parseUriHeaders_cons {mid : Text} {p : Param}
    (hinput : input = '&' :: displayParam p ++ mid ∨ input = displayParam p ++ mid)
    (hp : IsParam isHeaderValueChar p) (hmid : ∀ c ∈ mid.head?, isHeaderValueChar c = false)
    (hps : parseUriHeaders mid = .ok (rest, ps)) :
  parseUriHeaders input = .ok (rest, p :: ps)
  := by
  refine many0_eq_ok.mpr (.inr ⟨mid, p, ps, rfl, headerParser_eq_ok.mpr ⟨hinput, hp, hmid⟩,
    ?_, hps⟩)
  have hpos := length_pos_of_ne_nil hp.displayParam_ne_nil
  rcases hinput with rfl | rfl
  · simp only [cons_append, length_cons, length_append]
    omega
  · rw [length_append]
    omega

section

variable (hhs : ∀ p ∈ hs, IsParam isHeaderValueChar p)
  (hrest : ∀ c ∈ rest.head?, isHeaderValueChar c = false ∧ c ≠ '&')
include hhs hrest

theorem parseUriHeaders_flatMap :
  parseUriHeaders ((hs.flatMap fun k => '&' :: displayParam k) ++ rest) = .ok (rest, hs)
  := by
  induction hs with
  | nil =>
    refine many0_eq_ok.mpr (.inl ⟨rfl, rfl, ?_⟩)
    cases hp : headerParser rest with
    | error e => exact ⟨e, hp⟩
    | ok x =>
    exfalso
    obtain ⟨hsplit, hparam, -⟩ := headerParser_eq_ok.mp hp
    rcases hsplit with rfl | rfl
    · apply (hrest '&' rfl).2 rfl
    obtain ⟨c, t, ht⟩ := exists_cons_of_ne_nil hparam.displayParam_ne_nil
    have hvalue := hparam.mem_displayParam rfl c (by simp [ht])
    have hnot := (hrest c (by simp [ht])).1
    rw [hvalue] at hnot
    cases hnot
  | cons p hs ih =>
    have htail := ih fun q hq => hhs q (mem_cons_of_mem _ hq)
    apply parseUriHeaders_cons (.inl (by simp)) (hhs p mem_cons_self) _ htail
    intro c hc
    cases hs with
    | nil => apply (hrest c hc).1
    | cons q qs =>
    cases hc
    rfl

theorem parseUriHeaders_displayHeaders :
  parseUriHeaders (displayHeaders hs ++ rest) = .ok (rest, hs)
  := by
  cases hs with
  | nil => apply parseUriHeaders_flatMap hhs hrest
  | cons p hs =>
  have htail := parseUriHeaders_flatMap (fun q hq => hhs q (mem_cons_of_mem _ hq)) hrest
  apply parseUriHeaders_cons (.inr (by simp [displayHeaders_cons]))
    (hhs p mem_cons_self) _ htail
  intro c hc
  cases hs with
  | nil => apply (hrest c hc).1
  | cons q qs =>
  cases hc
  rfl

end

/-! ### Versions and ports -/

theorem mapRes_run1_eq_ok {kind : Nom.ErrorKind} {bound n : ℕ} :
  Nom.mapRes (Nom.run1 kind Char.isDigit) (parse bound) input = .ok (rest, n)
    ↔ ∃ ds, input = ds ++ rest ∧ ds ≠ [] ∧ (∀ c ∈ ds, c.isDigit = true)
      ∧ (∀ c ∈ rest.head?, c.isDigit = false) ∧ parse bound ds = some n
  := by
  rw [mapRes_eq_ok]
  constructor
  · rintro ⟨ds, hds, hn⟩
    obtain ⟨hne, rfl, hdigits, hstop⟩ := run1_eq_ok.mp hds
    exact ⟨ds, rfl, hne, hdigits, hstop, hn⟩
  · rintro ⟨ds, rfl, hne, hdigits, hstop, hn⟩
    exact ⟨ds, run1_eq_ok.mpr ⟨hne, rfl, hdigits, hstop⟩, hn⟩

theorem mapRes_run1_display {kind : Nom.ErrorKind} {bound n : ℕ} (hn : n < bound)
    (hrest : ∀ c ∈ rest.head?, c.isDigit = false) :
  Nom.mapRes (Nom.run1 kind Char.isDigit) (parse bound) (display n ++ rest)
    = .ok (rest, n)
  := mapRes_run1_eq_ok.mpr ⟨display n, rfl, display_ne_nil n,
    fun _ hc => isDigit_of_mem_display hc, hrest, parse_display hn⟩

theorem exists_of_parseVersion {v : Version} (h : parseVersion input = .ok (rest, v)) :
  ∃ a b, input = "SIP/".toList ++ (a ++ '.' :: (b ++ rest)) ∧ (∀ c ∈ a, c.isDigit = true)
    ∧ (∀ c ∈ b, c.isDigit = true) ∧ v.major < 2 ^ 8 ∧ v.minor < 2 ^ 8
  := by
  simp only [parseVersion, bind_eq_ok, Prod.exists] at h
  obtain ⟨r₁, t, h₁, r₂, major, h₂, r₃, dot, h₃, r₄, minor, h₄, h⟩ := h
  obtain ⟨rfl, -⟩ := tag_eq_ok.mp h₁
  obtain ⟨a, rfl, -, ha, -, hmajor⟩ := mapRes_run1_eq_ok.mp h₂
  obtain ⟨rfl, -⟩ := char_eq_ok.mp h₃
  obtain ⟨b, rfl, -, hb, -, hminor⟩ := mapRes_run1_eq_ok.mp h₄
  cases h
  exact ⟨a, b, rfl, ha, hb, (parse_eq_some hmajor).2.2, (parse_eq_some hminor).2.2⟩

theorem parseVersion_display {v : Version} (hmajor : v.major < 2 ^ 8) (hminor : v.minor < 2 ^ 8)
    (hrest : ∀ c ∈ rest.head?, c.isDigit = false) :
  parseVersion (v.display ++ rest) = .ok (rest, v)
  := by
  have hsplit : v.display ++ rest = "SIP/".toList
      ++ (display v.major ++ '.' :: (display v.minor ++ rest)) := by
    simp [Version.display]
  have hdot : ∀ c ∈ ('.' :: (display v.minor ++ rest)).head?, c.isDigit = false := by
    rintro c ⟨⟩
    rfl
  simp only [parseVersion, bind_eq_ok, Prod.exists]
  exact ⟨_, _, tag_eq_ok.mpr ⟨hsplit, rfl⟩, _, _, mapRes_run1_display hmajor hdot, _, _,
    char_eq_ok.mpr ⟨rfl, rfl⟩, _, _, mapRes_run1_display hminor hrest, rfl⟩

theorem parsePort_eq_ok {n : ℕ} :
  parsePort input = .ok (rest, n)
    ↔ ∃ ds, input = ':' :: (ds ++ rest) ∧ ds ≠ [] ∧ (∀ c ∈ ds, c.isDigit = true)
      ∧ (∀ c ∈ rest.head?, c.isDigit = false) ∧ parse (2 ^ 16) ds = some n
  := by
  rw [parsePort, preceded_eq_ok]
  constructor
  · rintro ⟨mid, c, hc, hn⟩
    obtain ⟨rfl, -⟩ := char_eq_ok.mp hc
    obtain ⟨ds, rfl, hds⟩ := mapRes_run1_eq_ok.mp hn
    exact ⟨ds, rfl, hds⟩
  · rintro ⟨ds, rfl, hds⟩
    exact ⟨ds ++ rest, ':', char_eq_ok.mpr ⟨rfl, rfl⟩, mapRes_run1_eq_ok.mpr ⟨ds, rfl, hds⟩⟩

/-! ### User information -/

/-- No `@` before the first character that ends a URI. -/
def AtFree (t : Text) : Prop :=
  '@' ∉ t.takeWhile fun c => !isUriEnd c

theorem atFree_append {x y : Text} :
  AtFree (x ++ y) ↔ AtFree x ∧ ((∃ c ∈ x, isUriEnd c = true) ∨ AtFree y)
  := by
  induction x with
  | nil => simp [AtFree]
  | cons c x ih =>
  simp only [AtFree] at ih ⊢
  rw [cons_append, takeWhile_cons, takeWhile_cons]
  by_cases hc : isUriEnd c = true
  · simp [hc]
  · simp only [hc, Bool.not_false, if_true, mem_cons, not_or, ih]
    simp [hc, and_assoc]

theorem atFree_append_of_forall {x y : Text} (hx : ∀ c ∈ x, isUriEnd c = false) :
  AtFree (x ++ y) ↔ '@' ∉ x ∧ AtFree y
  := by
  have htake : x.takeWhile (fun c => !isUriEnd c) = x := by
    simpa using hx
  rw [atFree_append, AtFree, htake]
  constructor
  · rintro ⟨h, ⟨c, hc, he⟩ | hy⟩
    · simp [hx c hc] at he
    · exact ⟨h, hy⟩
  · rintro ⟨h, hy⟩
    exact ⟨h, .inr hy⟩

theorem atFree_append_neutral {x y : Text} (hx : ∀ c ∈ x, isUriEnd c = false ∧ c ≠ '@') :
  AtFree (x ++ y) ↔ AtFree y
  := by
  rw [atFree_append_of_forall fun c hc => (hx c hc).1]
  constructor
  · intro h
    apply h.2
  intro h
  refine ⟨?_, h⟩
  intro hmem
  apply (hx '@' hmem).2 rfl

/-- Nothing follows, or a space. -/
def AtEnd (tail : Text) : Prop :=
  ∀ c ∈ tail.head?, c = ' '

theorem atFree_append_atEnd {x y tail : Text} (htail : AtEnd tail) (h : AtFree (x ++ y)) :
  AtFree (x ++ tail)
  := by
  rw [atFree_append] at h ⊢
  refine ⟨h.1, .inr ?_⟩
  cases tail with
  | nil => simp [AtFree]
  | cons c tail =>
  obtain rfl := htail c rfl
  simp [AtFree, isUriEnd]

def userParamsOf (userPart : Text) : List Param :=
  (((userPart.dropWhile (· ≠ ';')).splitOn ';').filter (· ≠ [])).map splitParam

theorem parseUserinfo_of_atFree (h : AtFree input) :
  parseUserinfo input = (input, none, [])
  := by
  rw [parseUserinfo, Slice.rfind_of_not_mem h]

variable {userPart : Text}

theorem parseUserinfo_append (hpart : ∀ c ∈ userPart, isUriEnd c = false) (hrest : AtFree rest) :
  parseUserinfo (userPart ++ '@' :: rest)
    = (rest, some (userPart.takeWhile (· ≠ ';')), userParamsOf userPart)
  := by
  have htake : (userPart ++ '@' :: rest).takeWhile (fun c => !isUriEnd c)
      = userPart ++ '@' :: rest.takeWhile fun c => !isUriEnd c := by
    have hat : isUriEnd '@' = false := rfl
    rw [takeWhile_append_of_pos (by simpa using hpart), takeWhile_cons, hat]
    rfl
  rw [parseUserinfo, htake, Slice.rfind_append userPart hrest]
  dsimp only
  have hdrop : (userPart ++ '@' :: rest).drop (userPart.length + 1) = rest := by simp
  rw [take_left, hdrop]
  split
  · rfl
  rename_i hsemi
  have hall : ∀ c ∈ userPart, decide (c ≠ ';') = true := by
    intro c hc
    rw [decide_eq_true_eq]
    rintro rfl
    apply hsemi hc
  rw [userParamsOf, takeWhile_eq_self_iff.mpr hall, dropWhile_eq_nil_iff.mpr hall]
  simp

theorem parseUserinfo_cases {user : Option Text} {ups : List Param}
    (h : parseUserinfo input = (rest, user, ups)) :
  (AtFree input ∧ rest = input ∧ user = none ∧ ups = [])
    ∨ ∃ userPart, input = userPart ++ '@' :: rest ∧ (∀ c ∈ userPart, isUriEnd c = false)
      ∧ AtFree rest ∧ user = some (userPart.takeWhile (· ≠ ';')) ∧ ups = userParamsOf userPart
  := by
  by_cases hat : AtFree input
  · rw [parseUserinfo_of_atFree hat] at h
    cases h
    exact .inl ⟨hat, rfl, rfl, rfl⟩
  rw [AtFree, not_not] at hat
  obtain ⟨x, y, hxy, hy⟩ := Slice.exists_of_mem_last hat
  have hall : ∀ c ∈ x ++ '@' :: y, isUriEnd c = false := by
    intro c hc
    rw [← hxy] at hc
    simpa using mem_takeWhile_imp hc
  have hinput : input = x ++ '@' :: (y ++ input.dropWhile fun c => !isUriEnd c) := by
    conv_lhs => rw [← takeWhile_append_dropWhile (p := fun c => !isUriEnd c) (l := input)]
    rw [hxy]
    simp
  have hrest : AtFree (y ++ input.dropWhile fun c => !isUriEnd c) := by
    rw [AtFree]
    have hspan := Slice.takeWhile_dropWhile_append (p := fun c => !isUriEnd c) (a := y)
      (fun c hc => by simpa using hall c (by simp [hc]))
      (Slice.head?_dropWhile (l := input))
    rw [hspan.1]
    apply hy
  have hx : ∀ c ∈ x, isUriEnd c = false := fun c hc => hall c (by simp [hc])
  rw [hinput, parseUserinfo_append hx hrest] at h
  cases h
  exact .inr ⟨x, hinput, hx, hrest, rfl, rfl⟩

theorem displayParam_splitParam (t : Text) :
  displayParam (splitParam t) = t
  := by
  rw [splitParam]
  split
  · rename_i name value h
    obtain ⟨rfl, -⟩ := Slice.splitOnce_eq_some_iff.mp h
    rfl
  · rfl

def userParamTexts (userPart : Text) : List Text :=
  ((userPart.dropWhile (· ≠ ';')).splitOn ';').filter (· ≠ [])

theorem mem_userParamTexts {w : Text} (h : w ∈ userParamTexts userPart) :
  w ≠ [] ∧ ';' ∉ w ∧ ∀ c ∈ w, c ∈ userPart
  := by
  obtain ⟨hw, hne⟩ := mem_filter.mp h
  obtain ⟨hsemi, hmem⟩ := Slice.mem_splitOn hw
  exact ⟨by simpa using hne, hsemi, fun c hc => (dropWhile_sublist _).mem (hmem c hc)⟩

theorem displayParams_userParamsOf (userPart : Text) :
  displayParams (userParamsOf userPart) = (userParamTexts userPart).flatMap fun w => ';' :: w
  := by
  have h : userParamsOf userPart = (userParamTexts userPart).map splitParam := rfl
  rw [h, displayParams, flatMap_map]
  simp only [displayParam_splitParam]

theorem userPart_display (hpart : ∀ c ∈ userPart, isUriEnd c = false) :
  let printed := userPart.takeWhile (· ≠ ';') ++ displayParams (userParamsOf userPart)
  (∀ c ∈ printed, isUriEnd c = false)
    ∧ printed.takeWhile (· ≠ ';') = userPart.takeWhile (· ≠ ';')
    ∧ userParamsOf printed = userParamsOf userPart
  := by
  intro printed
  have htexts : ∀ w ∈ userParamTexts userPart, w ≠ [] ∧ ';' ∉ w ∧ ∀ c ∈ w, c ∈ userPart :=
    fun w hw => mem_userParamTexts hw
  have hbare : ∀ c ∈ userPart.takeWhile (· ≠ ';'), decide (c ≠ ';') = true := by
    intro c hc
    apply mem_takeWhile_imp (p := fun x => decide (x ≠ ';')) hc
  have hhead : ∀ c ∈ (displayParams (userParamsOf userPart)).head?, decide (c ≠ ';') = false := by
    rw [displayParams_userParamsOf]
    cases userParamTexts userPart <;> simp
  obtain ⟨htake, hdrop⟩ := Slice.takeWhile_dropWhile_append hbare hhead
  refine ⟨?_, htake, ?_⟩
  · intro c hc
    rcases mem_append.mp hc with hc | hc
    · apply hpart c ((takeWhile_sublist _).mem hc)
    rw [displayParams_userParamsOf, mem_flatMap] at hc
    obtain ⟨w, hw, hc⟩ := hc
    rcases mem_cons.mp hc with rfl | hc
    · rfl
    · apply hpart c ((htexts w hw).2.2 c hc)
  · have hsplit : (displayParams (userParamsOf userPart)).splitOn ';'
        = [] :: userParamTexts userPart := by
      rw [displayParams_userParamsOf]
      apply Slice.splitOn_append_flatMap (x := []) (by simp) fun w hw => (htexts w hw).2.1
    have hfilter : (userParamTexts userPart).filter (· ≠ []) = userParamTexts userPart := by
      rw [filter_eq_self]
      intro w hw
      simpa using (htexts w hw).1
    rw [userParamsOf, hdrop, hsplit, filter_cons_of_neg (by simp), hfilter]
    rfl

end Siphon
