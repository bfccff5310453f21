import Siphon.Library.IndexMap
import Siphon.Library.Utf8
import Siphon.Library.Decimal

/-!
# The header container

Header fields under their canonical name, in the order they first came, each with the name
it had on the wire and its values; and the order they are written back in.
-/

namespace Siphon

/-! ### Names -/

/-- The long name a single-letter compact form stands for. -/
def compactForm : Char → Option Text
  | 'a' => some "accept-contact".toList
  | 'b' => some "referred-by".toList
  | 'c' => some "content-type".toList
  | 'd' => some "request-disposition".toList
  | 'e' => some "content-encoding".toList
  | 'f' => some "from".toList
  | 'i' => some "call-id".toList
  | 'j' => some "reject-contact".toList
  | 'k' => some "supported".toList
  | 'l' => some "content-length".toList
  | 'm' => some "contact".toList
  | 'o' => some "event".toList
  | 'r' => some "refer-to".toList
  | 's' => some "subject".toList
  | 't' => some "to".toList
  | 'u' => some "allow-events".toList
  | 'v' => some "via".toList
  | 'x' => some "session-expires".toList
  | 'y' => some "identity".toList
  | _ => none

/-- Canonical lookup key for a header name: in ASCII lower case, with the compact forms
expanded. -/
def canonicalKey (name : Text) : Text :=
  let full := match name with
    | [c] => compactForm c.toLower
    | _ => none
  full.getD (Text.toAsciiLowercase name)

theorem canonicalKey_cases {P : Text → Prop} {name : Text}
    (hcompact : ∀ c full, compactForm c = some full → P full)
    (hlower : (∀ c, name = [c] → compactForm c.toLower = none) → P (Text.toAsciiLowercase name)) :
  P (canonicalKey name)
  := by
  unfold canonicalKey
  split
  · rename_i c
    cases hc : compactForm c.toLower with
    | none => apply hlower fun d hd => by simpa [← (List.singleton_inj.mp hd)] using hc
    | some full => apply hcompact _ _ hc
  · rename_i hname
    apply hlower fun c hc => absurd hc (hname c)

theorem canonicalKey_canonicalKey (name : Text) :
  canonicalKey (canonicalKey name) = canonicalKey name
  := by
  apply canonicalKey_cases (P := fun key => canonicalKey key = key)
  · intro c full hfull
    unfold compactForm at hfull
    split at hfull <;> cases hfull <;> decide
  intro hnone
  have hlower := Text.toAsciiLowercase_toAsciiLowercase name
  rcases name with _ | ⟨c, _ | ⟨d, cs⟩⟩
  · rfl
  · have hc : c.toLower.toLower = c.toLower := (List.cons.inj hlower).1
    simp [canonicalKey, Text.toAsciiLowercase, hc, hnone c rfl]
  · apply hlower

def sameHeaderName (first second : Text) : Bool :=
  canonicalKey first == canonicalKey second

/-- The rank of every header that is not placed explicitly. -/
def middleRank : ℕ := 128

/-- The headers with a place of their own on the wire, and their ranks. -/
def wireRanks : List (Text × ℕ) :=
  [ ("via".toList, 0), ("max-forwards".toList, 1), ("record-route".toList, 2),
    ("route".toList, 3), ("proxy-require".toList, 4), ("proxy-authorization".toList, 5),
    ("from".toList, 6), ("to".toList, 7), ("call-id".toList, 8), ("cseq".toList, 9),
    ("contact".toList, 10), ("content-disposition".toList, 250),
    ("content-encoding".toList, 251), ("content-language".toList, 252),
    ("content-type".toList, 253), ("content-length".toList, 254) ]

def wireRank (canonical : Text) : ℕ :=
  (wireRanks.lookup canonical).getD middleRank

/-! ### The container -/

/-- Header fields: the canonical name is mapped to the name on the wire and the values. -/
structure SipHeaders where
  headers : IndexMap Text (Text × List Text)
  canonical : ∀ e ∈ headers.entries, e.1 = canonicalKey e.2.1
deriving DecidableEq

namespace SipHeaders

def new : SipHeaders :=
  ⟨IndexMap.empty, by simp [IndexMap.empty]⟩

/-- Update the entry of a name: `f` on the one it has, or the values `values` under `name`. -/
def upsert (h : SipHeaders) (name : Text) (values : List Text)
    (f : Text × List Text → Text × List Text)
    (hf : ∀ e, canonicalKey e.1 = canonicalKey name → canonicalKey (f e).1 = canonicalKey name) :
    SipHeaders where
  headers := h.headers.upsert (canonicalKey name) (name, values) f
  canonical := by
    intro e he
    rcases IndexMap.mem_upsertList he with rfl | ⟨v, hv, rfl⟩ | he
    · rfl
    · apply (hf v _).symm
      apply (h.canonical _ hv).symm
    · apply h.canonical e he

def add (h : SipHeaders) (name value : Text) : SipHeaders :=
  h.upsert name [value] (fun e => (e.1, e.2 ++ [value])) fun _ he => he

def setAll (h : SipHeaders) (name : Text) (values : List Text) : SipHeaders :=
  h.upsert name values (fun _ => (name, values)) fun _ _ => rfl

/-- Set a header to a single value, in the place it has. -/
def set (h : SipHeaders) (name value : Text) : SipHeaders :=
  h.setAll name [value]

def getAll (h : SipHeaders) (name : Text) : Option (List Text) :=
  (h.headers.get? (canonicalKey name)).map Prod.snd

def get (h : SipHeaders) (name : Text) : Option Text :=
  (h.getAll name).bind List.head?

def remove (h : SipHeaders) (name : Text) : SipHeaders where
  headers := h.headers.shiftRemove (canonicalKey name)
  canonical e he := h.canonical e (List.mem_of_mem_filter he)

/-- The declared body length, if it is an unsigned 64-bit integer. -/
def contentLength (h : SipHeaders) : Option ℕ :=
  (h.get "Content-Length".toList).bind fun s => Decimal.parse (2 ^ 64) (Text.trim s)

/-! ### The wire form -/

abbrev Entry : Type := Text × Text × List Text

/-- One `Name: value` line for each value of an entry. -/
def pushHeaderRows (e : Entry) : Bytes :=
  e.2.2.flatMap fun value => Utf8.encode (e.2.1 ++ ": ".toList ++ value ++ "\r\n".toList)

/-- Whether no entry has a smaller rank than the one before it. -/
def ordered : ℕ → List Entry → Bool
  | _, [] => true
  | previous, e :: es => previous ≤ wireRank e.1 && ordered (wireRank e.1) es

/-- Move an entry down from the end of the ranked ones, here listed last to first, past those
of a greater rank. -/
def insertRanked (e : Entry) : List Entry → List Entry
  | [] => [e]
  | x :: xs => if wireRank e.1 < wireRank x.1 then x :: insertRanked e xs else e :: x :: xs

/-- The entries in the order they are written: unchanged if they are ordered already, or else
after a stable insertion sort by rank. -/
def wireOrder (h : SipHeaders) : List Entry :=
  let entries := h.headers.entries
  if ordered 0 entries then entries
  else (entries.foldl (fun ranked e => insertRanked e ranked) []).reverse

/-- The header block in wire order, without the blank line after it. -/
def writeWire (h : SipHeaders) : Bytes :=
  h.wireOrder.flatMap pushHeaderRows

end SipHeaders

end Siphon
