import Siphon.Library.Text

/-!
# Parser combinators over texts

A parser takes the text that is left and returns the text after what it consumed together
with a result, or an error naming the text it failed on.  No combinator here fails in a way
that `alt`, `opt` or `many0` cannot recover from.
-/

namespace Nom

inductive ErrorKind where
  | tag
  | char
  | digit
  | space
  | takeUntil
  | takeWhile1
  | mapRes
  | many0
deriving DecidableEq

/-- A parser error: the text the failing combinator was given, and its kind. -/
structure Error where
  input : Text
  code : ErrorKind
deriving DecidableEq

/-- A parser: from the text that is left to the remaining text and a result, or an error. -/
abbrev Parser (α : Type) : Type := Text → Except Error (Text × α)

variable {α β : Type}

def tag (t : Text) (input : Text) : Except Error (Text × Text) :=
  if t.isPrefixOf input then .ok (input.drop t.length, t) else .error ⟨input, .tag⟩

def char (c : Char) : Parser Char
  | [] => .error ⟨[], .char⟩
  | d :: rest => if d = c then .ok (rest, c) else .error ⟨d :: rest, .char⟩

/-- The longest run of characters satisfying `p`. -/
def takeWhile (p : Char → Bool) (input : Text) : Except Error (Text × Text) :=
  .ok (input.dropWhile p, input.takeWhile p)

/-- A longest run that may not be empty, with the error kind of its combinator. -/
def run1 (kind : ErrorKind) (p : Char → Bool) (input : Text) : Except Error (Text × Text) :=
  if input.takeWhile p = [] then .error ⟨input, kind⟩
  else .ok (input.dropWhile p, input.takeWhile p)

/-- The longest non-empty run of characters satisfying `p`. -/
def takeWhile1 (p : Char → Bool) : Parser Text :=
  run1 .takeWhile1 p

def digit1 : Parser Text :=
  run1 .digit Char.isDigit

/-- One or more spaces and tabs. -/
def space1 : Parser Text :=
  run1 .space fun c => c == ' ' || c == '\t'

/-- Everything before the first occurrence of `pat`. -/
def takeUntil (pat : Text) (input : Text) : Except Error (Text × Text) :=
  match Slice.position pat input with
  | some n => .ok (input.drop n, input.take n)
  | none => .error ⟨input, .takeUntil⟩

variable (p : Parser α)

/-- The result of `p`, if it succeeds. -/
def opt (input : Text) : Except Error (Text × Option α) :=
  match p input with
  | .ok (rest, a) => .ok (rest, some a)
  | .error _ => .ok (input, none)

/-- The result of the second parser after the first. -/
def preceded (q : Parser β) (input : Text) : Except Error (Text × β) := do
  let (input, _) ← p input
  q input

def pair (q : Parser β) (input : Text) : Except Error (Text × α × β) := do
  let (input, a) ← p input
  let (input, b) ← q input
  return (input, a, b)

/-- The result of the first parser, or else that of the second. -/
def alt (p q : Parser α) (input : Text) : Except Error (Text × α) :=
  match p input with
  | .ok x => .ok x
  | .error _ => q input

/-- The result of `p` under a total map. -/
def map (f : α → β) (input : Text) : Except Error (Text × β) := do
  let (input, a) ← p input
  return (input, f a)

/-- The result of `p` under a partial map. -/
def mapRes (f : α → Option β) (input : Text) : Except Error (Text × β) := do
  let (rest, a) ← p input
  match f a with
  | some b => return (rest, b)
  | none => .error ⟨input, .mapRes⟩

/-- The results of `p` as often as it succeeds.  A success that consumes nothing is an
error, which also bounds the recursion. -/
def many0 (p : Parser α) (input : Text) : Except Error (Text × List α) :=
  match p input with
  | .error _ => .ok (input, [])
  | .ok (rest, a) =>
    if rest.length < input.length then do
      let (rest, as) ← many0 p rest
      return (rest, a :: as)
    else .error ⟨input, .many0⟩
termination_by input.length

/-! ### What a success says about the input -/

theorem bind_eq_ok {ε γ δ : Type} {x : Except ε γ} {f : γ → Except ε δ} {d : δ} :
  (x >>= f) = .ok d ↔ ∃ c, x = .ok c ∧ f c = .ok d
  := by
  cases x <;> simp [bind, Except.bind]

variable {input rest out : Text} {a : α} {b : β}

theorem tag_eq_ok {t : Text} :
  tag t input = .ok (rest, out) ↔ input = t ++ rest ∧ out = t
  := by
  rw [tag]
  split
  · rename_i h
    obtain ⟨r, rfl⟩ := List.isPrefixOf_iff_prefix.mp h
    simp [eq_comm]
  rename_i h
  rw [List.isPrefixOf_iff_prefix] at h
  constructor
  · rintro ⟨⟩
  · rintro ⟨rfl, -⟩
    exfalso
    apply h (List.prefix_append _ _)

theorem char_eq_ok {c d : Char} :
  char c input = .ok (rest, d) ↔ input = c :: rest ∧ d = c
  := by
  cases input with
  | nil => simp [char]
  | cons x l =>
  rw [char]
  split
  · rename_i h
    simp [h, eq_comm]
  · rename_i h
    simp [h]

variable {p : Char → Bool}

theorem takeWhile_eq_ok :
  takeWhile p input = .ok (rest, out)
    ↔ input = out ++ rest ∧ (∀ c ∈ out, p c = true) ∧ ∀ c ∈ rest.head?, p c = false
  := by
  rw [← Slice.span_iff, takeWhile]
  simp only [Except.ok.injEq, Prod.mk.injEq]
  tauto

theorem run1_eq_ok {kind : ErrorKind} :
  run1 kind p input = .ok (rest, out)
    ↔ out ≠ [] ∧ input = out ++ rest ∧ (∀ c ∈ out, p c = true) ∧ ∀ c ∈ rest.head?, p c = false
  := by
  rw [← Slice.span_iff, run1]
  split
  · rename_i h
    rw [h]
    simp only [reduceCtorEq, false_iff]
    rintro ⟨hne, rfl, -⟩
    apply hne rfl
  · rename_i h
    simp only [Except.ok.injEq, Prod.mk.injEq]
    constructor
    · rintro ⟨rfl, rfl⟩
      apply And.intro h (And.intro rfl rfl)
    · rintro ⟨-, rfl, rfl⟩
      apply And.intro rfl rfl

theorem takeWhile1_eq_ok :
  takeWhile1 p input = .ok (rest, out)
    ↔ out ≠ [] ∧ input = out ++ rest ∧ (∀ c ∈ out, p c = true) ∧ ∀ c ∈ rest.head?, p c = false
  := run1_eq_ok

theorem takeUntil_eq_ok {pat : Text} :
  takeUntil pat input = .ok (rest, out)
    ↔ input = out ++ rest ∧ Slice.position pat input = some out.length
  := by
  rw [takeUntil]
  cases h : Slice.position pat input with
  | none => simp
  | some n =>
  obtain ⟨hn, -, -⟩ := Slice.position_eq_some_iff.mp h
  simp only [Except.ok.injEq, Prod.mk.injEq, Option.some.injEq]
  constructor
  · rintro ⟨rfl, rfl⟩
    simp [hn]
  · rintro ⟨rfl, rfl⟩
    simp

variable {p : Parser α}

theorem opt_eq_ok_some :
  opt p input = .ok (rest, some a) ↔ p input = .ok (rest, a)
  := by
  rw [opt]
  split <;> simp_all

theorem opt_eq_ok_none :
  opt p input = .ok (rest, none) ↔ rest = input ∧ ∃ e, p input = .error e
  := by
  rw [opt]
  split <;> simp_all [eq_comm]

theorem preceded_eq_ok {q : Parser β} :
  preceded p q input = .ok (rest, b) ↔ ∃ mid a, p input = .ok (mid, a) ∧ q mid = .ok (rest, b)
  := by
  rw [preceded, bind_eq_ok, Prod.exists]

theorem pair_eq_ok {q : Parser β} :
  pair p q input = .ok (rest, a, b) ↔ ∃ mid, p input = .ok (mid, a) ∧ q mid = .ok (rest, b)
  := by
  rw [pair, bind_eq_ok, Prod.exists]
  simp only [bind_eq_ok, Prod.exists, pure, Except.pure, Except.ok.injEq, Prod.mk.injEq]
  constructor
  · rintro ⟨mid, a', h, r, b', h', rfl, rfl, rfl⟩
    exact ⟨mid, h, h'⟩
  · rintro ⟨mid, h, h'⟩
    exact ⟨mid, a, h, rest, b, h', rfl, rfl, rfl⟩

theorem alt_eq_ok {q : Parser α} :
  alt p q input = .ok (rest, a)
    ↔ p input = .ok (rest, a) ∨ (∃ e, p input = .error e) ∧ q input = .ok (rest, a)
  := by
  rw [alt]
  split <;> simp_all

theorem map_eq_ok {f : α → β} :
  map p f input = .ok (rest, b) ↔ ∃ a, p input = .ok (rest, a) ∧ f a = b
  := by
  rw [map, bind_eq_ok, Prod.exists]
  simp only [pure, Except.pure, Except.ok.injEq, Prod.mk.injEq]
  constructor
  · rintro ⟨mid, a', h, rfl, h'⟩
    exact ⟨a', h, h'⟩
  · rintro ⟨a', h, h'⟩
    exact ⟨rest, a', h, rfl, h'⟩

theorem mapRes_eq_ok {f : α → Option β} :
  mapRes p f input = .ok (rest, b) ↔ ∃ a, p input = .ok (rest, a) ∧ f a = some b
  := by
  rw [mapRes, bind_eq_ok, Prod.exists]
  constructor
  · rintro ⟨mid, a', h, h'⟩
    use a'
    cases hf : f a' with
    | none => simp [hf] at h'
    | some b' =>
    simp only [hf, pure, Except.pure, Except.ok.injEq, Prod.mk.injEq] at h'
    obtain ⟨rfl, rfl⟩ := h'
    apply And.intro h rfl
  · rintro ⟨a', h, h'⟩
    use rest, a'
    simp [h, h', pure, Except.pure]

theorem many0_eq_ok {as : List α} :
  many0 p input = .ok (rest, as)
    ↔ (as = [] ∧ rest = input ∧ ∃ e, p input = .error e)
      ∨ ∃ mid a as', as = a :: as' ∧ p input = .ok (mid, a) ∧ mid.length < input.length
        ∧ many0 p mid = .ok (rest, as')
  := by
  rw [many0]
  cases h : p input with
  | error e => simp [eq_comm, and_comm]
  | ok x =>
  obtain ⟨mid, a⟩ := x
  simp only
  split
  · rename_i hlt
    simp only [bind_eq_ok, pure, Except.pure, Except.ok.injEq, Prod.mk.injEq, Prod.exists]
    constructor
    · rintro ⟨r, as', h', rfl, rfl⟩
      exact .inr ⟨mid, a, as', rfl, ⟨rfl, rfl⟩, hlt, h'⟩
    · rintro (⟨-, -, e, he⟩ | ⟨mid', a', as', rfl, ⟨rfl, rfl⟩, -, h'⟩)
      · cases he
      · exact ⟨rest, as', h', rfl, rfl⟩
  · rename_i hlt
    simp [hlt]

end Nom
