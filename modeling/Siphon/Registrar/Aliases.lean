import Siphon.Library.Inverse
import Siphon.Registrar.SideState

/-!
# The aliases of addresses of record

Each URI that an address of record lists is an alias of it, until another address lists the URI.
-/

namespace Siphon.Registrar

open List Owners

/-- Remove a suffix as often as it stands at the end, at most so many times. -/
def trimEndMatches (suffix : Text) : ℕ → Text → Text
  | 0, text => text
  | n + 1, text =>
    if suffix <:+ text then trimEndMatches suffix n (text.take (text.length - suffix.length))
    else text

def normalizeAor (uri : Text) : Text :=
  let uri := (uri.dropWhile (· == '<')).rdropWhile (· == '>')
  let sips : Bool := "sips:".toList <+: uri
  let hasScheme := sips || "sip:".toList <+: uri
  let uri := (uri.takeWhile (· != ';')).takeWhile (· != '?')
  let uri := trimEndMatches (if sips then ":5061" else ":5060").toList uri.length uri
  if hasScheme then uri else "sip:".toList ++ uri

structure AliasIndex where
  aliases : Text → Option Text := fun _ => none
  associatedUris : Text → Option (List Text) := fun _ => none

inductive AliasCall where
  | setAssociatedUris (aor : Text) (uris : List Text)
  | dropAorState (aor : Text)
  | applyAorState (aor : Text) (uris : List Text)

namespace AliasIndex

variable (index : AliasIndex)

def resolveAlias (aor : Text) : Text :=
  (index.aliases (normalizeAor aor)).getD (normalizeAor aor)

variable (primary : Text)

/-- The URIs an address lists, in normalised form. -/
def listed : List Text :=
  ((index.associatedUris primary).getD []).map normalizeAor

def pruneAliasesTo : Text → Option Text :=
  (((index.listed primary).filter (· ≠ primary)).map (·, primary)).foldl removeIf index.aliases

def installAliases (uris : List Text) : Text → Option Text :=
  uris.foldl (fun aliases uri =>
    if normalizeAor uri ≠ primary then Function.update aliases (normalizeAor uri) (some primary)
    else aliases) (index.pruneAliasesTo primary)

/-- Install the aliases of a list and store it. -/
def replace (uris : List Text) : AliasIndex :=
  ⟨index.installAliases primary uris,
    Function.update index.associatedUris primary (entryOf uris)⟩

def setAssociatedUris (aor : Text) (uris : List Text) : AliasIndex :=
  index.replace (index.resolveAlias aor) uris

def dropAorState (aor : Text) : AliasIndex :=
  ⟨index.pruneAliasesTo aor, Function.update index.associatedUris aor none⟩

def applyAorState (aor : Text) (uris : List Text) : AliasIndex :=
  if uris ≠ [] then index.replace aor uris else index

def machine : Machine AliasIndex AliasCall Empty where
  step index
    | .setAssociatedUris aor uris => (index.setAssociatedUris aor uris, [])
    | .dropAorState aor => (index.dropAorState aor, [])
    | .applyAorState aor uris => (index.applyAorState aor uris, [])

/-- An alias leads to an address that lists it. -/
def Sound : Prop :=
  ∀ key primary, index.aliases key = some primary →
    key ∈ index.listed primary ∧ key ≠ primary

/-- A URI that is listed leads to an address that lists it. -/
def Resolved : Prop :=
  ∀ primary, ∀ uri ∈ (index.associatedUris primary).getD [],
    normalizeAor uri ∈ index.listed (index.resolveAlias uri)

/-- The address whose list a call replaces, and the new list. -/
def replaces : AliasCall → Option (Text × List Text)
  | .setAssociatedUris aor uris => some (index.resolveAlias aor, uris)
  | .dropAorState aor => some (aor, [])
  | .applyAorState aor uris => if uris ≠ [] then some (aor, uris) else none

/-- What a list gives up is not listed elsewhere, unless it leads to another address already or is
an address that lists itself. -/
def Spares (primary : Text) (uris : List Text) : Prop :=
  ∀ key ∈ index.listed primary, key ∉ uris.map normalizeAor → ∀ other ≠ primary,
    key ∈ index.listed other → (∃ target ≠ primary, index.aliases key = some target)
      ∨ key ≠ primary ∧ key ∈ index.listed key

theorem step_eq (call : AliasCall) :
  (machine.step index call).1
    = (index.replaces call).elim index fun new => index.replace new.1 new.2
  := by
  cases call with
  | setAssociatedUris | dropAorState => rfl
  | applyAorState aor uris =>
    simp only [machine, applyAorState, replaces]
    split <;> rfl

theorem listed_replace (primary : Text) (uris : List Text) (other : Text) :
  (index.replace primary uris).listed other
    = if other = primary then uris.map normalizeAor else index.listed other
  := by
  simp only [listed, replace, Function.update_apply]
  split
  · cases uris <;> rfl
  · rfl

variable {index} (h : index.Sound) (primary : Text) (uris : List Text)
include h

theorem aliases_replace (key : Text) :
  (index.replace primary uris).aliases key
    = if key ∈ uris.map normalizeAor ∧ key ≠ primary then some primary
      else if index.aliases key = some primary then none else index.aliases key
  := by
  simp only [replace, installAliases]
  induction uris using reverseRecOn with
  | nil =>
    rw [foldl_nil, pruneAliasesTo, foldl_removeIf, if_neg (by simp)]
    have := h key
    cases htarget : index.aliases key <;> grind
  | append_singleton uris uri ih =>
  rw [foldl_append, foldl_cons, foldl_nil]
  simp only [map_append, mem_append, map_singleton, mem_singleton]
  by_cases hself : normalizeAor uri = primary
  · grind
  · grind

theorem sound_replace :
  (index.replace primary uris).Sound
  := by
  intro key target htarget
  have := h key target
  rw [aliases_replace h] at htarget
  rw [listed_replace]
  grind

theorem resolved_iff :
  index.Resolved ↔ ∀ primary, ∀ key ∈ index.listed primary,
    index.aliases key ≠ none ∨ key ∈ index.listed key
  := by
  simp only [Resolved, listed, forall_mem_map, resolveAlias]
  refine forall₃_congr fun primary uri _ => ?_
  cases htarget : index.aliases (normalizeAor uri) with
  | none => simp
  | some target => exact iff_of_true (h _ target htarget).1 (by simp)

theorem resolved_replace (hresolved : index.Resolved) :
  (index.replace primary uris).Resolved ↔ index.Spares primary uris
  := by
  rw [resolved_iff h] at hresolved
  rw [resolved_iff (sound_replace h primary uris)]
  simp only [aliases_replace h, listed_replace, Spares]
  constructor
  · intro hall key _ hgone other hother hkey
    cases htarget : index.aliases key <;> grind
  · intro hspares other key hkey
    -- An address that does not list the key is not where it leads.
    have := h key
    cases htarget : index.aliases key <;> grind

end AliasIndex

open AliasIndex

/-- Under any calls an alias leads to an address that lists it, and a URI that is listed does so
throughout if and only if no list that is replaced gives up one that is listed elsewhere. -/
theorem alias_index_resolves (calls : List AliasCall) :
  (machine.run {} calls).Sound
    ∧ ((∀ before, before <+: calls → (machine.run {} before).Resolved)
      ↔ ∀ before call, before ++ [call] <+: calls → ∀ new ∈ (machine.run {} before).replaces call,
        (machine.run {} before).Spares new.1 new.2)
  := by
  have hsound : machine.Invariant Sound := by
    intro index call h
    rw [step_eq]
    cases index.replaces call with
    | none => exact h
    | some new => exact sound_replace h new.1 new.2
  have hinitial : AliasIndex.Sound {} := by simp [Sound]
  have hempty : AliasIndex.Resolved {} := by simp [Resolved]
  refine ⟨hsound.run hinitial calls, @Machine.Invariant.run_iff _ _ _ _ _ Resolved
    (fun index call => ∀ new ∈ index.replaces call, index.Spares new.1 new.2) hsound ?_ _ hinitial
    hempty calls⟩
  intro index call h hresolved
  rw [step_eq]
  cases index.replaces call with
  | none => simpa using hresolved
  | some new => simpa using resolved_replace h new.1 new.2 hresolved

/-- A list is dropped after another: their alias is lost, though the first list still holds it. -/
theorem alias_lost_with_second_list :
  let index := machine.run {} [.setAssociatedUris "sip:a".toList ["sip:x".toList],
    .setAssociatedUris "sip:b".toList ["sip:x".toList], .dropAorState "sip:b".toList]
  index.associatedUris "sip:a".toList = some ["sip:x".toList]
    ∧ index.resolveAlias "sip:x".toList = "sip:x".toList ∧ index.listed "sip:x".toList = []
  := by
  decide

end Siphon.Registrar
