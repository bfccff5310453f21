import Siphon.Ifc.TriggerPoint

/-!
# The method shortcut of trigger points

When the method that is asked for first turns away no request that the triggers match.
-/

namespace Siphon.Ifc

open List IndexMap ServicePointTrigger
open Text (eqIgnoreAsciiCase eqIgnoreAsciiCase_toAsciiLowercase)

variable {spts : List ServicePointTrigger} {spt : ServicePointTrigger}

/-! ### Groups -/

theorem mem_groups {index : ℤ} :
  index ∈ spt.groups ↔ spt.group = [] ∧ index = 0 ∨ index ∈ spt.group
  := by
  rw [groups]
  cases h : spt.group <;> simp

theorem exists_mem_groups (spt : ServicePointTrigger) :
  ∃ index, index ∈ spt.groups
  := by
  rw [groups]
  cases spt.group <;> simp

/-- Whether a trigger the code takes for alone shares group 0: one of the two names it and the other
names no group. -/
def SharesGroupZero (spts : List ServicePointTrigger) (spt : ServicePointTrigger) : Prop :=
  spt.group = [] ∧ (∃ other ∈ spts, 0 ∈ other.group) ∨
    spt.group ≠ [] ∧ (∀ index ∈ spt.group, index = 0) ∧ ∃ other ∈ spts, other.group = []

theorem eq_of_countP_eq_one {α : Type} {p : α → Bool} {l : List α} {a b : α}
    (hone : l.countP p = 1) (ha : a ∈ l) (hpa : p a = true) (hb : b ∈ l) (hpb : p b = true) :
  a = b
  := by
  rw [countP_eq_length_filter, length_eq_one_iff] at hone
  obtain ⟨c, hc⟩ := hone
  have hac : a ∈ l.filter p := mem_filter.mpr ⟨ha, hpa⟩
  have hbc : b ∈ l.filter p := mem_filter.mpr ⟨hb, hpb⟩
  rw [hc, mem_singleton] at hac hbc
  rw [hac, hbc]

theorem exists_group_alone (hspt : spt ∈ spts) (halone : groupAlone spts spt = true)
    (hshares : ¬ SharesGroupZero spts spt) :
  ∃ index ∈ spt.groups, ∀ other ∈ spts, index ∈ other.groups → other = spt
  := by
  rw [SharesGroupZero, not_or] at hshares
  rw [groupAlone] at halone
  by_cases hnil : spt.group = []
  · have hnone : ∀ other ∈ spts, 0 ∉ other.group := by simpa [hnil] using hshares.1
    simp only [hnil, isEmpty_nil, if_true, beq_iff_eq] at halone
    refine ⟨0, mem_groups.mpr (.inl ⟨hnil, rfl⟩), ?_⟩
    intro other hother hin
    rcases mem_groups.mp hin with ⟨hempty, -⟩ | hin
    · apply eq_of_countP_eq_one halone hother (by simp [hempty]) hspt (by simp [hnil])
    · exact absurd hin (hnone other hother)
  · have hone : ∀ index ∈ spt.group, spts.countP (·.group.contains index) = 1 := by
      simpa [hnil] using halone
    have hnamed : ∀ index ∈ spt.group, ∀ other ∈ spts, index ∈ other.group → other = spt := by
      intro index hindex other hother hin
      apply eq_of_countP_eq_one (hone index hindex) hother (by simpa using hin) hspt
        (by simpa using hindex)
    have hother : ∃ index ∈ spt.group, index = 0 → ∀ other ∈ spts, other.group ≠ [] := by
      by_contra hall
      push Not at hall
      obtain ⟨index, hindex⟩ := exists_mem_of_ne_nil _ hnil
      apply hshares.2 ⟨hnil, fun index hindex => (hall index hindex).1, (hall index hindex).2⟩
    obtain ⟨index, hindex, hzero⟩ := hother
    refine ⟨index, mem_groups.mpr (.inr hindex), ?_⟩
    intro other hother hin
    rcases mem_groups.mp hin with ⟨hempty, hz⟩ | hin
    · exact absurd hempty (hzero hz other hother)
    · apply hnamed index hindex other hother hin

theorem requiredTrigger_eq_some (h : requiredTrigger spts = some spt) :
  spt ∈ spts ∧ spt.conditionNegated = false ∧ (∃ method, spt.method = some method) ∧
    groupAlone spts spt = true
  := by
  have hsat := List.find?_some h
  simp only [Bool.and_eq_true, Bool.not_eq_true', Bool.or_eq_false_iff, Option.isNone_eq_false_iff,
    Option.isSome_iff_exists] at hsat
  apply And.intro (mem_of_find?_eq_some h) ⟨hsat.1.1, hsat.1.2, hsat.2⟩

/-! ### The plain evaluation -/

section

variable [StdRegex] {request : IfcRequest}

/-- The meaning of a trigger point without the shortcut: every group has a trigger that holds, or
some group has only such triggers. -/
def plainEvaluation (conditionTypeCnf : Bool) (spts : List ServicePointTrigger)
    (request : IfcRequest) : Bool :=
  let indexes := spts.flatMap groups
  if conditionTypeCnf then
    indexes.all fun index =>
      spts.any fun spt => spt.groups.contains index && evaluateSpt spt request
  else
    indexes.any fun index =>
      spts.all fun spt => !spt.groups.contains index || evaluateSpt spt request

theorem plainEvaluation_cnf_iff :
  plainEvaluation true spts request = true ↔
    ∀ index ∈ spts.flatMap groups,
      ∃ spt ∈ spts, index ∈ spt.groups ∧ evaluateSpt spt request = true
  := by
  simp only [plainEvaluation, if_true, any_eq_true, all_eq_true, Bool.and_eq_true,
    contains_eq_mem, decide_eq_true_eq]

theorem plainEvaluation_dnf_iff :
  plainEvaluation false spts request = true ↔
    ∃ index ∈ spts.flatMap groups,
      ∀ spt ∈ spts, index ∈ spt.groups → evaluateSpt spt request = true
  := by
  simp only [plainEvaluation, Bool.false_eq_true, if_false, any_eq_true, all_eq_true,
    Bool.or_eq_true, Bool.not_eq_true', contains_eq_mem, decide_eq_false_iff_not, ← imp_iff_not_or]

variable (conditionTypeCnf : Bool)

/-- The groups the code collects are the groups of the plain evaluation. -/
theorem groupBy_eq_plainEvaluation (spts : List ServicePointTrigger) (request : IfcRequest) :
  (let groups := groupBy groups spts
    if conditionTypeCnf then
      groups.entries.all fun group => group.2.any fun spt => evaluateSpt spt request
    else groups.entries.any fun group => group.2.all fun spt => evaluateSpt spt request) =
      plainEvaluation conditionTypeCnf spts request
  := by
  have hindex : ∀ group ∈ (groupBy groups spts).entries,
      group.1 ∈ spts.flatMap groups := by
    intro group hgroup
    obtain ⟨hne, hmem⟩ := mem_group_iff hgroup
    obtain ⟨spt, hspt⟩ := exists_mem_of_ne_nil _ hne
    apply mem_flatMap.mpr ⟨spt, (hmem spt).mp hspt⟩
  have hgroup : ∀ index ∈ spts.flatMap groups,
      ∃ group ∈ (groupBy groups spts).entries, group.1 = index := by
    intro index hindex
    obtain ⟨spt, hspt, hin⟩ := mem_flatMap.mp hindex
    apply exists_group hspt hin
  rw [Bool.eq_iff_iff]
  cases conditionTypeCnf
  · rw [plainEvaluation_dnf_iff]
    simp only [Bool.false_eq_true, if_false, any_eq_true, all_eq_true]
    constructor
    · rintro ⟨group, hin, hall⟩
      refine ⟨group.1, hindex group hin, ?_⟩
      intro spt hspt hg
      apply hall spt (((mem_group_iff hin).2 spt).mpr ⟨hspt, hg⟩)
    · rintro ⟨index, hin, hall⟩
      obtain ⟨group, hgr, rfl⟩ := hgroup index hin
      refine ⟨group, hgr, ?_⟩
      intro spt hspt
      have hmem := ((mem_group_iff hgr).2 spt).mp hspt
      apply hall spt hmem.1 hmem.2
  · rw [plainEvaluation_cnf_iff]
    simp only [if_true, any_eq_true, all_eq_true]
    constructor
    · intro hall index hin
      obtain ⟨group, hgr, rfl⟩ := hgroup index hin
      obtain ⟨spt, hspt, heval⟩ := hall group hgr
      have hmem := ((mem_group_iff hgr).2 spt).mp hspt
      apply Exists.intro spt ⟨hmem.1, hmem.2, heval⟩
    · intro hall group hgr
      obtain ⟨spt, hspt, hin, heval⟩ := hall group.1 (hindex group hgr)
      apply Exists.intro spt ⟨((mem_group_iff hgr).2 spt).mpr ⟨hspt, hin⟩, heval⟩

theorem plainEvaluation_singleton (spt : ServicePointTrigger) (request : IfcRequest) :
  plainEvaluation conditionTypeCnf [spt] request = evaluateSpt spt request
  := by
  obtain ⟨index, hindex⟩ := exists_mem_groups spt
  rw [Bool.eq_iff_iff, plainEvaluation]
  cases conditionTypeCnf <;> grind

theorem evaluateSpt_of_method {method : Text} (hneg : spt.conditionNegated = false)
    (hmethod : spt.method = some method) (request : IfcRequest) :
  evaluateSpt spt request = eqIgnoreAsciiCase request.method method.toAsciiLowercase
  := by
  rw [eqIgnoreAsciiCase_toAsciiLowercase]
  simp [evaluateSpt, evaluateSptCondition, hneg, hmethod]

/-! ### The shortcut and the plain evaluation -/

theorem evaluateTriggerPoint_singleton (spt : ServicePointTrigger) (request : IfcRequest) :
  evaluateTriggerPoint ⟨conditionTypeCnf, [spt], computeMethodFastPath conditionTypeCnf [spt]⟩
      request =
    evaluateSpt spt request
  := by
  have hpath : computeMethodFastPath conditionTypeCnf [spt] =
      if !spt.conditionNegated then spt.method.map Text.toAsciiLowercase else none := rfl
  rw [evaluateTriggerPoint, hpath]
  cases hneg : spt.conditionNegated
  · cases hmethod : spt.method with
    | none => simp
    | some method => simp [evaluateSpt_of_method hneg hmethod]
  · simp

theorem evaluateTriggerPoint_of_two_le (request : IfcRequest) (hlen : 2 ≤ spts.length) :
  evaluateTriggerPoint ⟨conditionTypeCnf, spts, computeMethodFastPath conditionTypeCnf spts⟩
      request =
    if (computeMethodFastPath conditionTypeCnf spts).any
        fun required => !eqIgnoreAsciiCase request.method required then false
    else plainEvaluation conditionTypeCnf spts request
  := by
  match spts, hlen with
  | first :: second :: rest, _ =>
    rw [← groupBy_eq_plainEvaluation]
    rfl

theorem any_computeMethodFastPath_iff (hlen : 2 ≤ spts.length) :
  (computeMethodFastPath conditionTypeCnf spts).any
      (fun required => !eqIgnoreAsciiCase request.method required) = true ↔
    conditionTypeCnf = true ∧ ∃ spt, requiredTrigger spts = some spt ∧
      evaluateSpt spt request = false
  := by
  have hpath : computeMethodFastPath conditionTypeCnf spts =
      if conditionTypeCnf then
        (requiredTrigger spts).bind fun spt => spt.method.map Text.toAsciiLowercase
      else none := by
    match spts, hlen with
    | _ :: _ :: _, _ => rfl
  cases conditionTypeCnf
  · simp [hpath]
  rw [hpath]
  cases hspt : requiredTrigger spts with
  | none => simp
  | some spt =>
  obtain ⟨-, hneg, ⟨method, hmethod⟩, -⟩ := requiredTrigger_eq_some hspt
  simp [evaluateSpt_of_method hneg hmethod, hmethod]

theorem evaluateSpt_of_plainEvaluation {index : ℤ}
    (hplain : plainEvaluation true spts request = true) (hspt : spt ∈ spts)
    (hindex : index ∈ spt.groups)
    (halone : ∀ other ∈ spts, index ∈ other.groups → other = spt) :
  evaluateSpt spt request = true
  := by
  obtain ⟨other, hother, hin, heval⟩ :=
    plainEvaluation_cnf_iff.mp hplain index (mem_flatMap.mpr ⟨spt, hspt, hindex⟩)
  rwa [halone other hother hin] at heval

/-- A trigger point the code misjudges: no group at all in DNF, or in CNF a trigger the shortcut
goes by that shares group 0 and does not hold, where every group has a trigger that does. -/
def Misjudged (conditionTypeCnf : Bool) (spts : List ServicePointTrigger) (request : IfcRequest) :
    Prop :=
  spts = [] ∧ conditionTypeCnf = false ∨
    conditionTypeCnf = true ∧
      ∃ spt, requiredTrigger spts = some spt ∧ SharesGroupZero spts spt ∧
        evaluateSpt spt request = false ∧
        ∀ index ∈ spts.flatMap groups,
          ∃ other ∈ spts, index ∈ other.groups ∧ evaluateSpt other request = true

theorem not_misjudged_singleton (spt : ServicePointTrigger) (request : IfcRequest) :
  ¬ Misjudged conditionTypeCnf [spt] request
  := by
  rintro (⟨hnil, -⟩ | ⟨-, other, hother, hshares, -⟩)
  · simp at hnil
  have hmem := (requiredTrigger_eq_some hother).1
  rw [mem_singleton] at hmem
  subst hmem
  rcases hshares with ⟨hgroup, hzero⟩ | ⟨hgroup, -, hempty⟩
  · simp [hgroup] at hzero
  · simp [hgroup] at hempty

theorem plainEvaluation_iff_misjudged (hlen : 2 ≤ spts.length)
    (hspt : requiredTrigger spts = some spt) (heval : evaluateSpt spt request = false) :
  plainEvaluation true spts request = true ↔ Misjudged true spts request
  := by
  obtain ⟨hmem, -, -, halone⟩ := requiredTrigger_eq_some hspt
  constructor
  · intro hplain
    refine .inr ⟨rfl, spt, hspt, ?_, heval, plainEvaluation_cnf_iff.mp hplain⟩
    by_contra hshares
    obtain ⟨index, hindex, hother⟩ := exists_group_alone hmem halone hshares
    have htrue := evaluateSpt_of_plainEvaluation hplain hmem hindex hother
    simp [heval] at htrue
  · rintro (⟨hnil, -⟩ | ⟨-, -, -, -, -, hall⟩)
    · simp [hnil] at hlen
    · apply plainEvaluation_cnf_iff.mpr hall

/-- The shortcut is exact but for the trigger points it misjudges. -/
theorem evaluateTriggerPoint_eq_plainEvaluation_iff (conditionTypeCnf : Option Bool)
    (spts : List ServicePointTrigger) (request : IfcRequest) :
  evaluateTriggerPoint (TriggerPointBuilder.mk conditionTypeCnf spts).build request =
      plainEvaluation (conditionTypeCnf.getD true) spts request ↔
    ¬ Misjudged (conditionTypeCnf.getD true) spts request
  := by
  generalize hcnf : conditionTypeCnf.getD true = cnf
  rw [TriggerPointBuilder.build, hcnf]
  match spts with
  | [] =>
    cases cnf <;> simp [evaluateTriggerPoint, plainEvaluation, Misjudged, requiredTrigger]
  | [spt] =>
    rw [plainEvaluation_singleton, iff_true_right (not_misjudged_singleton cnf spt request)]
    apply evaluateTriggerPoint_singleton
  | first :: second :: rest =>
    have hlen : 2 ≤ (first :: second :: rest).length := by simp
    rw [evaluateTriggerPoint_of_two_le cnf request hlen]
    split
    · rename_i hturned
      obtain ⟨rfl, spt, hspt, heval⟩ := (any_computeMethodFastPath_iff cnf hlen).mp hturned
      rw [← plainEvaluation_iff_misjudged hlen hspt heval, eq_comm, Bool.not_eq_true]
    rename_i hpassed
    rw [any_computeMethodFastPath_iff cnf hlen] at hpassed
    rw [iff_true_left rfl]
    rintro (⟨hnil, -⟩ | ⟨hcnf, spt, hspt, -, heval, -⟩)
    · simp at hnil
    · apply hpassed ⟨hcnf, spt, hspt, heval⟩

end

/-- An INVITE trigger that names no group, beside a trigger on originating requests in group 0,
which it shares. -/
def sharedGroupZero : List ServicePointTrigger :=
  [⟨false, [], some "INVITE".toList, none, none, none, none⟩,
    ⟨false, [0], none, none, none, some .originating, none⟩]

def originatingMessage : IfcRequest :=
  ⟨"MESSAGE".toList, "sip:a@b".toList, [], .originating, none⟩

/-- An originating MESSAGE satisfies group 0, yet it is turned away. -/
theorem sharedGroupZero_turned_away :
  @evaluateTriggerPoint ⟨fun _ => none⟩ (TriggerPointBuilder.mk (some true) sharedGroupZero).build
      originatingMessage = false ∧
    @plainEvaluation ⟨fun _ => none⟩ true sharedGroupZero originatingMessage = true
  := by
  decide

end Siphon.Ifc
