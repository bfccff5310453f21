import Mathlib.Data.List.Flatten
import Siphon.Sip.Refer

/-!
# Replaces values and their text

A `Replaces` value keeps its Call-ID, the last of each tag and whether there was an `early-only`,
without the white space around them.
-/

namespace Siphon

open List Replaces Slice Text

/-! ### Parameters of a Replaces value -/

/-- The value of the last parameter that starts with a given text. -/
def lastParam (lead : Text) (parts : List Text) : Option Text :=
  (parts.filterMap fun part => part.dropPrefix? lead).getLast?

theorem foldl_getLast? {σ α β : Type} {step : σ → α → σ} {f : α → Option β}
    (get : σ → Option β) (h : ∀ s a, get (step s a) = (f a).or (get s)) (l : List α) (s : σ) :
  get (l.foldl step s) = (l.filterMap f).getLast?.or (get s)
  := by
  induction l generalizing s with
  | nil => simp
  | cons a l ih =>
  rw [foldl_cons, ih, h, filterMap_cons]
  cases f a with
  | none => rfl
  | some b => cases hl : (l.filterMap f).getLast? <;> simp [List.getLast?_cons, hl]

theorem eq_append_of_dropPrefix? {lead t v : Text} (h : t.dropPrefix? lead = some v) :
  t = lead ++ v
  := by
  obtain ⟨p, hp, hbeq⟩ := List.dropPrefix?_eq_some_iff.mp h
  rw [hp, beq_iff_eq.mp hbeq]

theorem dropPrefix?_append (lead rest : Text) :
  (lead ++ rest).dropPrefix? lead = some rest
  := List.dropPrefix?_append_of_beq rest (beq_self_eq_true lead)

theorem read_eq (params : ReplacesParams) (part : Text) :
  params.read part
    = ⟨((trim part).dropPrefix? "from-tag=".toList).or params.fromTag,
        ((trim part).dropPrefix? "to-tag=".toList).or params.toTag,
        params.earlyOnly || trim part == "early-only".toList⟩
  := by
  have hfalse := (Bool.or_false params.earlyOnly).symm
  rw [ReplacesParams.read]
  cases hfrom : (trim part).dropPrefix? "from-tag=".toList with
  | some v =>
    rw [eq_append_of_dropPrefix? hfrom]
    exact congrArg (ReplacesParams.mk _ _) hfalse
  | none =>
    cases hto : (trim part).dropPrefix? "to-tag=".toList with
    | some v =>
      rw [eq_append_of_dropPrefix? hto]
      exact congrArg (ReplacesParams.mk _ _) hfalse
    | none =>
      by_cases h : trim part = "early-only".toList
      · rw [if_pos h, beq_iff_eq.mpr h, Bool.or_true]
        rfl
      · rw [if_neg h, beq_eq_false_iff_ne.mpr h, Bool.or_false]
        rfl

theorem foldl_read_earlyOnly (parts : List Text) (init : ReplacesParams) :
  (parts.foldl ReplacesParams.read init).earlyOnly
    = (init.earlyOnly || (parts.map trim).contains "early-only".toList)
  := by
  induction parts generalizing init with
  | nil => exact (Bool.or_false _).symm
  | cons part parts ih =>
  rw [foldl_cons, ih, read_eq, map_cons, contains_cons, Bool.or_assoc,
    BEq.comm (a := trim part)]

theorem foldl_read (parts : List Text) :
  parts.foldl ReplacesParams.read ⟨none, none, false⟩
    = ⟨lastParam "from-tag=".toList (parts.map trim),
        lastParam "to-tag=".toList (parts.map trim),
        (parts.map trim).contains "early-only".toList⟩
  := by
  have hfrom := foldl_getLast? ReplacesParams.fromTag
    (fun params part => congrArg ReplacesParams.fromTag (read_eq params part)) parts
    ⟨none, none, false⟩
  have hto := foldl_getLast? ReplacesParams.toTag
    (fun params part => congrArg ReplacesParams.toTag (read_eq params part)) parts
    ⟨none, none, false⟩
  have hearly := foldl_read_earlyOnly parts ⟨none, none, false⟩
  rw [Option.or_none] at hfrom hto
  rw [lastParam, lastParam, filterMap_map, filterMap_map]
  exact congr (congr (congrArg ReplacesParams.mk hfrom) hto) hearly

/-- The trimmed parameters say what a `Replaces` value has. -/
structure HasParams (r : Replaces) (parts : List Text) : Prop where
  fromTag : lastParam "from-tag=".toList parts = some r.fromTag
  toTag : lastParam "to-tag=".toList parts = some r.toTag
  earlyOnly : parts.contains "early-only".toList = r.earlyOnly

variable {r : Replaces} {input : Text}

theorem parseReplacesValue_eq_ok :
  parseReplacesValue input = .ok r
    ↔ ∃ first parts, (trim input).splitOn ';' = first :: parts ∧ trim first = r.callId
      ∧ r.callId ≠ [] ∧ HasParams r (parts.map trim)
  := by
  rw [parseReplacesValue]
  cases hsplit : (trim input).splitOn ';' with
  | nil => simp
  | cons first parts =>
  dsimp only
  rw [foldl_read]
  constructor
  · intro h
    split at h
    · cases h
    rename_i hne
    split at h
    · cases h
    rename_i fromTag hfrom
    split at h
    · cases h
    · rename_i toTag hto
      cases h
      exact ⟨first, parts, rfl, rfl, hne, hfrom, hto, rfl⟩
  · rintro ⟨first', parts', ⟨⟩, hcall, hne, hfrom, hto, hearly⟩
    rw [hcall, if_neg hne, hfrom, hto, hearly]

theorem append_mem_of_lastParam {lead v : Text} {parts : List Text}
    (h : lastParam lead parts = some v) :
  lead ++ v ∈ parts
  := by
  obtain ⟨part, hpart, hv⟩ := mem_filterMap.mp (mem_of_getLast? h)
  rwa [← eq_append_of_dropPrefix? hv]

/-! ### The text of a Replaces value -/

def Replaces.params (r : Replaces) : List Text :=
  ["from-tag=".toList ++ r.fromTag, "to-tag=".toList ++ r.toTag]
    ++ if r.earlyOnly then ["early-only".toList] else []

theorem Replaces.display_eq (r : Replaces) :
  r.display = r.callId ++ r.params.flatMap fun p => ';' :: p
  := by
  rw [display, params]
  split <;> simp

/-- A `Replaces` value as the parser returns it. -/
structure IsReplaces (r : Replaces) : Prop where
  callId_ne_nil : r.callId ≠ []
  callId_trim : Text.trim r.callId = r.callId
  callId : ';' ∉ r.callId
  params : ∀ p ∈ r.params, ';' ∉ p ∧ Text.trim p = p

theorem HasParams.params_subset {parts : List Text} (h : HasParams r parts) :
  r.params ⊆ parts
  := by
  intro p hp
  rw [params, mem_append, mem_pair] at hp
  rcases hp with (rfl | rfl) | hp
  · exact append_mem_of_lastParam h.fromTag
  · exact append_mem_of_lastParam h.toTag
  · split at hp
    · rename_i he
      rw [mem_singleton.mp hp]
      exact contains_iff_mem.mp (h.earlyOnly.trans he)
    · cases hp

theorem isReplaces_of_parseReplacesValue (h : parseReplacesValue input = .ok r) :
  IsReplaces r
  := by
  obtain ⟨first, parts, hsplit, hcall, hne, hparams⟩ := parseReplacesValue_eq_ok.mp h
  have hsemi : ∀ p ∈ first :: parts, ';' ∉ p := by
    rw [← hsplit]
    exact fun p hp => (mem_splitOn hp).1
  refine ⟨hne, ?_, ?_, ?_⟩
  · rw [← hcall]
    apply trimMatches_trimMatches
  · rw [← hcall]
    exact fun hc => hsemi first mem_cons_self (mem_of_mem_trimMatches hc)
  · intro p hp
    obtain ⟨part, hpart, rfl⟩ := mem_map.mp (hparams.params_subset hp)
    exact ⟨fun hc => hsemi part (mem_cons_of_mem _ hpart) (mem_of_mem_trimMatches hc),
      trimMatches_trimMatches _⟩

/-! ### Reading the text back -/

theorem getLast?_of_trim_eq {t : Text} (h : trim t = t) :
  ∀ c ∈ t.getLast?, isWhitespace c = false
  := by
  intro c hc
  rw [← h] at hc
  obtain ⟨hne, rfl⟩ := mem_getLast?_eq_getLast hc
  apply getLast_trimMatches

theorem Replaces.exists_display_eq (r : Replaces) :
  ∃ x, ∃ p ∈ r.params, p ≠ [] ∧ r.display = x ++ p
  := by
  rw [display, params]
  split
  · exact ⟨r.callId ++ ";from-tag=".toList ++ r.fromTag ++ ";to-tag=".toList ++ r.toTag ++ [';'],
      "early-only".toList, by simp, by simp, by simp⟩
  · exact ⟨r.callId ++ ";from-tag=".toList ++ r.fromTag ++ [';'],
      "to-tag=".toList ++ r.toTag, by simp, by simp, by simp⟩

theorem IsReplaces.display_trim (hr : IsReplaces r) :
  trim r.display = r.display
  := by
  apply trimMatches_eq_self
  · intro c hc
    rw [display_eq, List.head?_append_of_ne_nil _ hr.callId_ne_nil, ← hr.callId_trim] at hc
    exact head?_trimMatches _ _ c hc
  · intro c hc
    obtain ⟨x, p, hp, hne, hx⟩ := r.exists_display_eq
    rw [hx, List.getLast?_append_of_ne_nil x hne] at hc
    exact getLast?_of_trim_eq (hr.params p hp).2 c hc

theorem hasParams_params (r : Replaces) :
  HasParams r r.params
  := by
  have hfrom := dropPrefix?_append "from-tag=".toList r.fromTag
  have hto := dropPrefix?_append "to-tag=".toList r.toTag
  have hother : ("from-tag=".toList ++ r.fromTag).dropPrefix? "to-tag=".toList = none := rfl
  constructor
  · rw [lastParam, params, filterMap_append, filterMap_cons, hfrom]
    cases r.earlyOnly <;> rfl
  · rw [lastParam, params, filterMap_append, filterMap_cons, hother]
    rw [filterMap_cons, hto]
    cases r.earlyOnly <;> rfl
  · rw [params]
    cases r.earlyOnly <;> rfl

theorem parseReplacesValue_display (hr : IsReplaces r) :
  parseReplacesValue r.display = .ok r
  := by
  have hmap : r.params.map trim = r.params :=
    (map_congr_left fun p hp => (hr.params p hp).2).trans (map_id _)
  refine parseReplacesValue_eq_ok.mpr ⟨r.callId, r.params, ?_, hr.callId_trim, hr.callId_ne_nil, ?_⟩
  · rw [hr.display_trim, display_eq]
    exact splitOn_append_flatMap hr.callId fun p hp => (hr.params p hp).1
  · rw [hmap]
    exact hasParams_params r

/-! ### Texts that are read as a given value -/

theorem nodup_params (r : Replaces) :
  r.params.Nodup
  := by
  rw [params]
  split <;> simp

theorem exists_perm_params (h : parseReplacesValue input = .ok r) :
  ∃ ps : List Text, ps.Perm r.params ∧ List.Sublist (r.callId ++ ps.flatMap fun p => ';' :: p) input
  := by
  obtain ⟨first, parts, hsplit, hcall, -, hparams⟩ := parseReplacesValue_eq_ok.mp h
  obtain ⟨ps, hperm, hsub⟩ := (nodup_params r).subperm hparams.params_subset
  use ps, hperm
  have hparts : List.Sublist (ps.flatMap fun p => ';' :: p) (parts.flatMap fun p => ';' :: p) := by
    refine (List.Sublist.flatMap hsub fun p => ';' :: p).trans ?_
    rw [flatMap_map]
    exact List.Sublist.flatMap_right parts fun p _ => (trimMatches_sublist p).cons_cons ';'
  rw [← hcall]
  refine (List.Sublist.append (trimMatches_sublist first) hparts).trans ?_
  rw [← eq_append_flatMap_of_splitOn hsplit]
  exact trimMatches_sublist input

end Siphon
