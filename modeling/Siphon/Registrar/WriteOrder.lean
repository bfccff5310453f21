import Siphon.Registrar.WriteBehind

/-!
# Writes reach the store in order

What waits is never older than what the store was offered, as long as a write that the drainer takes
is not older than an applied one whose number is forgotten.
-/

namespace Siphon.WriteBehind

open List PendingWrite IndexMap Queue

variable {κ ω : Type}

theorem map_fst_filterMap_sublist {ν : Type} (f : κ → Option ν) (keys : List κ) :
  ((keys.filterMap fun key => (f key).map (key, ·)).map Prod.fst).Sublist keys
  := by
  induction keys with
  | nil => exact List.Sublist.refl _
  | cons key keys ih =>
  rw [filterMap_cons]
  cases f key with
  | none => exact ih.cons key
  | some value => exact ih.cons_cons key

/-! ### What the store has taken -/

/-- A write put over what is held has the newer number of the two. -/
theorem sequence_elim_newer (held : Option (PendingWrite ω)) (write : PendingWrite ω) :
  let sequence := (held.elim write (·.newer write)).sequence
  (sequence = write.sequence ∨ ∃ old, held = some old ∧ sequence = old.sequence) ∧
    write.sequence ≤ sequence ∧ ∀ old, held = some old → old.sequence ≤ sequence
  := by
  cases held with
  | none => simp
  | some old =>
  simp only [Option.elim_some, newer]
  split <;> simp <;> omega

/-- The last answer by which the store took a write of a key. -/
def LastApplied (log : List (Answer κ)) (key : κ) (answer : Answer κ) : Prop :=
  ∃ before after, log = before ++ answer :: after ∧ answer.key = key ∧ answer.outcome = .applied ∧
    ∀ later ∈ after, later.key = key → later.outcome ≠ .applied

section

variable {log : List (Answer κ)} {key : κ} {answer other : Answer κ}

theorem LastApplied.mem (h : LastApplied log key answer) :
  answer ∈ log ∧ answer.key = key ∧ answer.outcome = .applied
  := by
  obtain ⟨before, after, rfl, hkey, hok, -⟩ := h
  exact ⟨by simp, hkey, hok⟩

theorem LastApplied.rel (h : LastApplied log key answer) {r : Answer κ → Answer κ → Prop}
    (hlog : log.Pairwise r) (hother : other ∈ log) (hkey : other.key = key)
    (hok : other.outcome = .applied) :
  other = answer ∨ r other answer
  := by
  obtain ⟨before, after, rfl, -, -, hlater⟩ := h
  rcases mem_append.mp hother with hbefore | hafter
  · apply Or.inr
    exact (pairwise_append.mp hlog).2.2 other hbefore answer (mem_cons_self ..)
  rcases mem_cons.mp hafter with heq | hafter
  · apply Or.inl heq
  · exact absurd hok (hlater other hafter hkey)

theorem exists_lastApplied (hanswer : answer ∈ log) (hkey : answer.key = key)
    (hok : answer.outcome = .applied) :
  ∃ last, LastApplied log key last
  := by
  induction log using List.reverseRecOn with
  | nil => simp at hanswer
  | append_singleton log last ih =>
  by_cases hlast : last.key = key ∧ last.outcome = .applied
  · exact ⟨last, log, [], rfl, hlast.1, hlast.2, by simp⟩
  rcases mem_append.mp hanswer with hanswer | hanswer
  · obtain ⟨found, before, after, rfl, hfound, hfok, hlater⟩ := ih hanswer
    refine ⟨found, before, after ++ [last], by simp, hfound, hfok, ?_⟩
    intro later hmem hlkey
    rcases mem_append.mp hmem with hmem | hmem
    · exact hlater later hmem hlkey
    · rw [mem_singleton.mp hmem] at hlkey ⊢
      simpa [hlkey] using hlast
  · rw [mem_singleton.mp hanswer] at hkey hok
    exact absurd ⟨hkey, hok⟩ hlast

theorem LastApplied.append (h : LastApplied log key answer) {answers : List (Answer κ)}
    (hnone : ∀ later ∈ answers, later.key = key → later.outcome ≠ .applied) :
  LastApplied (log ++ answers) key answer
  := by
  obtain ⟨before, after, rfl, hkey, hok, hlater⟩ := h
  refine ⟨before, after ++ answers, by simp, hkey, hok, ?_⟩
  intro later hmem
  rcases mem_append.mp hmem with hmem | hmem
  · exact hlater later hmem
  · exact hnone later hmem

end

/-! ### Batches -/

variable {results : List (Result κ ω)} {now : ℕ}

theorem mem_answers {answer : Answer κ} (h : answer ∈ answers results now) :
  ∃ write, ((answer.key, write), answer.outcome) ∈ results ∧ answer.sequence = write.sequence ∧
    answer.time = now
  := by
  obtain ⟨⟨⟨key, write⟩, outcome⟩, hresult, rfl⟩ := mem_map.mp h
  exact ⟨write, hresult, rfl, rfl⟩

variable [DecidableEq κ] {key : κ} {write : PendingWrite ω}

namespace Queue

/-- The results of a batch are for writes of the backlog, one for a key. -/
structure Offered (queue : Queue κ ω) (results : List (Result κ ω)) : Prop where
  nodup : (results.map fun result => result.1.1).Nodup
  backlog : ∀ result ∈ results, queue.backlog.get? result.1.1 = some result.1.2

theorem batch_cases (queue : Queue κ ω) (keys : List κ) (outcomes : List Outcome) (now : ℕ) :
  queue.batch keys outcomes now = (queue, []) ∨
    ∃ flush results, queue.flush = some flush ∧ queue.Offered results ∧
      queue.batch keys outcomes now = (queue.settle flush results now, answers results now)
  := by
  rw [batch]
  cases hflush : queue.flush with
  | none => apply Or.inl rfl
  | some flush =>
  dsimp only
  split
  · apply Or.inl rfl
  generalize hbatch : ((keys.dedup.take writeConcurrency).filterMap fun key =>
    (queue.backlog.get? key).map (key, ·)) = batch
  generalize hzip : batch.zip (outcomes ++ List.replicate batch.length .refused) = zipped
  have hfst : zipped.map Prod.fst = batch := by
    rw [← hzip]
    apply map_fst_zip
    simp
  have hkeys : zipped.map (fun result => result.1.1) = batch.map Prod.fst := by
    rw [← hfst, map_map]
    rfl
  refine .inr ⟨flush, zipped, rfl, ⟨?_, ?_⟩, ?_⟩
  · rw [hkeys, ← hbatch]
    apply (map_fst_filterMap_sublist _ _).nodup
    apply (take_sublist _ _).nodup
    apply nodup_dedup
  · intro result hresult
    have hmem : result.1 ∈ batch := by
      rw [← hfst]
      apply mem_map_of_mem hresult
    rw [← hbatch, mem_filterMap] at hmem
    obtain ⟨key, -, hmem⟩ := hmem
    rw [Option.map_eq_some_iff] at hmem
    obtain ⟨write, hget, heq⟩ := hmem
    rw [← heq]
    exact hget
  · rfl

/-! ### Keys -/

variable {queue : Queue κ ω}

/-- A write of a key that is to be offered: in the backlog, or refused in this pass. -/
def Waits (queue : Queue κ ω) (key : κ) (write : PendingWrite ω) : Prop :=
  queue.backlog.get? key = some write ∨
    ∃ flush, queue.flush = some flush ∧ (key, write) ∈ flush.refused

/-- In a pass, a key is refused once and is out of the backlog then. -/
structure RefusedOnce (queue : Queue κ ω) : Prop where
  nodup : ∀ flush, queue.flush = some flush → (flush.refused.map Prod.fst).Nodup
  out : ∀ flush, queue.flush = some flush → ∀ entry ∈ flush.refused,
    queue.backlog.get? entry.1 = none

theorem lookup_eq_some_iff {ν : Type} {es : List (κ × ν)} (hnodup : (es.map Prod.fst).Nodup)
    {value : ν} :
  es.lookup key = some value ↔ (key, value) ∈ es
  := by
  exact get?_eq_some_iff (m := ⟨es, hnodup⟩)

section

variable {flush : Flush κ ω} (hflush : queue.flush = some flush) (hrefused : queue.RefusedOnce)
  (hoffered : queue.Offered results)
include hflush hrefused hoffered

/-- After a batch, a key waits as before, or was refused now. -/
theorem waits_settle_iff :
  (queue.settle flush results now).Waits key write ↔
    queue.Waits key write ∧ ∀ outcome, ((key, write), outcome) ∈ results → outcome = .refused
  := by
  have hremoved : (queue.settle flush results now).backlog.get? key = some write ↔
      key ∉ results.map (fun result => result.1.1) ∧ queue.backlog.get? key = some write := by
    rw [settle, get?_removeAll, Option.ite_none_left_eq_some]
  have hrefusals : (∃ flush', (queue.settle flush results now).flush = some flush' ∧
      (key, write) ∈ flush'.refused) ↔
      (key, write) ∈ flush.refused ∨ ((key, write), .refused) ∈ results := by
    simp [settle]
  have hbefore : queue.Waits key write ↔
      queue.backlog.get? key = some write ∨ (key, write) ∈ flush.refused := by
    simp [Waits, hflush]
  rw [Waits, hremoved, hrefusals, hbefore]
  constructor
  · rintro (⟨hother, hget⟩ | hmem | hmem)
    · apply And.intro (.inl hget)
      intro outcome hresult
      exact absurd (mem_map_of_mem hresult) hother
    · apply And.intro (.inr hmem)
      intro outcome hresult
      have hnone := hrefused.out flush hflush _ hmem
      rw [hoffered.backlog _ hresult] at hnone
      simp at hnone
    · apply And.intro (.inl (hoffered.backlog _ hmem))
      intro outcome hresult
      have heq := inj_on_of_nodup_map hoffered.nodup hresult hmem rfl
      exact congrArg Prod.snd heq
  · rintro ⟨hget | hmem, hall⟩
    · by_cases hother : key ∉ results.map fun result => result.1.1
      · apply Or.inl ⟨hother, hget⟩
      obtain ⟨⟨⟨key', write'⟩, outcome⟩, hresult, rfl⟩ := mem_map.mp (not_not.mp hother)
      have hwrite := hoffered.backlog _ hresult
      rw [hget, Option.some_inj] at hwrite
      subst hwrite
      obtain rfl := hall outcome hresult
      exact .inr (.inr hresult)
    · apply Or.inr (.inl hmem)

theorem RefusedOnce.settle (now : ℕ) :
  (queue.settle flush results now).RefusedOnce
  := by
  have hnew : ∀ entry ∈ (results.filter (·.2 = .refused)).map Prod.fst,
      queue.backlog.get? entry.1 = some entry.2 ∧
        entry.1 ∈ results.map fun result => result.1.1 := by
    intro entry hentry
    obtain ⟨result, hresult, rfl⟩ := mem_map.mp hentry
    have hmem := mem_of_mem_filter hresult
    exact ⟨hoffered.backlog result hmem, mem_map_of_mem hmem⟩
  constructor
  · rintro _ ⟨rfl⟩
    rw [map_append, nodup_append']
    refine ⟨hrefused.nodup flush hflush, ?_, ?_⟩
    · rw [map_map]
      apply List.Nodup.sublist (filter_sublist.map _) hoffered.nodup
    intro key hold hnewkey
    obtain ⟨entry, hentry, rfl⟩ := mem_map.mp hold
    obtain ⟨entry', hentry', heq⟩ := mem_map.mp hnewkey
    have hsome := (hnew entry' hentry').1
    rw [heq, hrefused.out flush hflush entry hentry] at hsome
    simp at hsome
  · rintro _ ⟨rfl⟩ entry hentry
    rw [Queue.settle]
    rw [get?_removeAll]
    rcases mem_append.mp hentry with hold | hmem
    · rw [hrefused.out flush hflush entry hold, ite_self]
    · rw [if_pos (hnew entry hmem).2]

end

theorem waits_endFlush_iff (hrefused : queue.RefusedOnce) :
  (queue.endFlush now).Waits key write ↔ queue.Waits key write
  := by
  rw [endFlush]
  cases hflush : queue.flush with
  | none => rfl
  | some flush =>
  dsimp only
  split
  · have hextend : (queue.backlog.extend flush.refused).get? key = some write ↔
        queue.Waits key write := by
      have hnodup := hrefused.nodup flush hflush
      rw [get?_extend _ hnodup, Option.or_eq_some_iff, lookup_eq_some_iff hnodup]
      simp only [Waits, hflush, Option.some_inj, exists_eq_left']
      constructor
      · rintro (hmem | ⟨-, hget⟩)
        · apply Or.inr hmem
        · apply Or.inl hget
      rintro (hget | hmem)
      · refine .inr ⟨?_, hget⟩
        rw [lookup_eq_none_iff]
        intro entry hentry
        rw [bne_iff_ne]
        rintro rfl
        rw [hrefused.out flush hflush entry hentry] at hget
        simp at hget
      · apply Or.inl hmem
    split <;> simp [Waits, hextend]
  · rfl

theorem RefusedOnce.endFlush (hrefused : queue.RefusedOnce) (now : ℕ) :
  (queue.endFlush now).RefusedOnce
  := by
  rw [Queue.endFlush]
  cases hflush : queue.flush with
  | none => exact hrefused
  | some flush =>
  dsimp only
  split
  · split <;> constructor <;> simp
  · exact hrefused

theorem get?_backlog_absorb (queue : Queue κ ω) (now : ℕ) (key : κ) :
  (queue.absorb now).backlog.get? key =
    match queue.pending.get? key with
    | none => queue.backlog.get? key
    | some write =>
      if (queue.prune now).isStale key write then queue.backlog.get? key
      else some ((queue.backlog.get? key).elim write (·.newer write))
  := by
  have hprune : ({ queue with pending := .empty }.prune now).isStale =
      (queue.prune now).isStale := by
    unfold prune
    split <;> rfl
  have hbacklog : ({ queue with pending := .empty }.prune now).backlog = queue.backlog := by
    unfold prune
    split <;> rfl
  rw [absorb]
  rw [get?_merge _ _ _ queue.pending.nodup, hprune, hbacklog]
  have hlookup : queue.pending.entries.lookup key = queue.pending.get? key := rfl
  rw [hlookup]
  cases queue.pending.get? key with
  | none => rfl
  | some write =>
  dsimp only
  cases (queue.prune now).isStale key write <;> rfl

end Queue

/-! ### What is always so -/

namespace World

variable {world : World κ ω}

def Enqueued (world : World κ ω) (key : κ) (sequence : ℕ) : Prop :=
  ∃ draw ∈ world.enqueued, draw.key = key ∧ draw.sequence = sequence

/-- The queue has the write of this number, or a newer one of its key, or the store has taken it or
cannot encode it. -/
def Covered (world : World κ ω) (draw : Draw κ) : Prop :=
  (∃ write, world.queue.pending.get? draw.key = some write ∧ draw.sequence ≤ write.sequence) ∨
  (∃ write, world.queue.Waits draw.key write ∧ draw.sequence ≤ write.sequence) ∨
  ∃ answer ∈ world.log, answer.key = draw.key ∧ answer.outcome ≠ .refused ∧
    draw.sequence ≤ answer.sequence

/-- What holds of every queue, whether its writes are in order or not. -/
structure Sane (world : World κ ω) : Prop where
  refusedOnce : world.queue.RefusedOnce
  draws_sorted : world.draws.Pairwise fun a b => a.sequence < b.sequence ∧ a.time ≤ b.time
  draws_le : ∀ draw ∈ world.draws,
    draw.sequence ≤ world.queue.sequence ∧ draw.time ≤ world.clock
  enqueued_drawn : ∀ draw ∈ world.enqueued, draw ∈ world.draws
  pending_known : ∀ key write, world.queue.pending.get? key = some write →
    world.Enqueued key write.sequence
  waits_known : ∀ key write, world.queue.Waits key write → world.Enqueued key write.sequence
  log_known : ∀ answer ∈ world.log, ∃ draw ∈ world.enqueued,
    draw.key = answer.key ∧ draw.sequence = answer.sequence ∧ draw.time ≤ answer.time
  log_sorted : world.log.Pairwise fun a b => a.time ≤ b.time
  log_le : ∀ answer ∈ world.log, answer.time ≤ world.clock
  covered : world.queue.closed = false → ∀ draw ∈ world.enqueued, world.Covered draw
  remembered : ∀ key record, world.queue.applied.get? key = some record →
    LastApplied world.log key ⟨key, record.1, .applied, record.2⟩
  forgotten : ∀ key, world.queue.applied.get? key = none → ∀ answer ∈ world.log,
    answer.key = key → answer.outcome = .applied → answer.time + appliedRetention ≤ world.clock

/-- A queue with the same writes, at a later time. -/
theorem Sane.of_same (h : world.Sane) {queue : Queue κ ω} {clock : ℕ}
    (hrefused : queue.RefusedOnce) (hpending : queue.pending = world.queue.pending)
    (hwaits : ∀ key write, queue.Waits key write ↔ world.queue.Waits key write)
    (happlied : queue.applied = world.queue.applied)
    (hsequence : queue.sequence = world.queue.sequence)
    (hclosed : queue.closed = world.queue.closed) (hclock : world.clock ≤ clock) :
  Sane { world with queue, clock }
  := by
  refine ⟨hrefused, h.draws_sorted, ?_, h.enqueued_drawn, ?_, ?_, h.log_known, h.log_sorted, ?_,
    ?_, ?_, ?_⟩
  · intro draw hdraw
    exact ⟨hsequence ▸ (h.draws_le draw hdraw).1, (h.draws_le draw hdraw).2.trans hclock⟩
  · rw [hpending]
    exact h.pending_known
  · intro key write hwait
    exact h.waits_known key write ((hwaits key write).mp hwait)
  · intro answer hanswer
    exact (h.log_le answer hanswer).trans hclock
  · intro hopen draw hdraw
    simp only [Covered, hpending, hwaits]
    exact h.covered (hclosed.symm.trans hopen) draw hdraw
  · rw [happlied]
    exact h.remembered
  · rw [happlied]
    intro key hnone answer hanswer hkey hok
    exact (h.forgotten key hnone answer hanswer hkey hok).trans hclock

theorem Sane.tick (h : world.Sane) (elapsed : ℕ) :
  Sane { world with clock := world.clock + elapsed }
  := h.of_same h.refusedOnce rfl (fun _ _ => Iff.rfl) rfl rfl rfl (Nat.le_add_right _ _)

theorem Sane.draw (h : world.Sane) (key : κ) :
  (world.act (.draw key)).Sane
  := { h with
    refusedOnce := ⟨h.refusedOnce.nodup, h.refusedOnce.out⟩
    draws_sorted := by
      apply pairwise_append.mpr ⟨h.draws_sorted, pairwise_singleton _ _, _⟩
      intro draw hdraw new hnew
      rw [mem_singleton.mp hnew]
      have hle := h.draws_le draw hdraw
      exact ⟨Nat.lt_succ_of_le hle.1, hle.2⟩
    draws_le := by
      intro draw hdraw
      rcases mem_append.mp hdraw with hdraw | hdraw
      · have hle := h.draws_le draw hdraw
        exact ⟨Nat.le_succ_of_le hle.1, hle.2⟩
      · rw [mem_singleton.mp hdraw]
        exact ⟨le_refl _, le_refl _⟩
    enqueued_drawn := fun draw hdraw => mem_append_left _ (h.enqueued_drawn draw hdraw) }

theorem Sane.enqueue (h : world.Sane) (draw : Draw κ) (write : ω) (sawClosed : Bool) :
  (world.act (.enqueue draw write sawClosed)).Sane
  := by
  rw [act]
  split
  · rename_i hallowed
    have hgrow : ∀ key sequence, world.Enqueued key sequence →
        ∃ draw' ∈ world.enqueued ++ [draw], draw'.key = key ∧ draw'.sequence = sequence := by
      rintro key sequence ⟨draw', hdraw', hwhich⟩
      exact ⟨draw', mem_append_left _ hdraw', hwhich⟩
    have hget : ∀ key,
        (world.queue.enqueue draw.key write draw.sequence world.clock).pending.get? key =
        if key = draw.key then
          some ((world.queue.pending.get? draw.key).elim ⟨write, draw.sequence, world.clock⟩
            (·.newer ⟨write, draw.sequence, world.clock⟩))
        else world.queue.pending.get? key := by
      intro key
      rw [Queue.enqueue, get?_upsert]
    have hnewer := sequence_elim_newer (world.queue.pending.get? draw.key)
      ⟨write, draw.sequence, world.clock⟩
    constructor
    · exact ⟨h.refusedOnce.nodup, h.refusedOnce.out⟩
    · exact h.draws_sorted
    · exact h.draws_le
    · intro draw' hdraw'
      rcases mem_append.mp hdraw' with hdraw' | hdraw'
      · exact h.enqueued_drawn draw' hdraw'
      · rw [mem_singleton.mp hdraw']
        exact hallowed.1
    · intro key pending hpending
      rw [hget] at hpending
      split at hpending
      · rename_i hkey
        rw [Option.some_inj] at hpending
        rw [← hpending, hkey]
        rcases hnewer.1 with hnew | ⟨held, hheld, hold⟩
        · rw [hnew]
          exact ⟨draw, by simp, rfl, rfl⟩
        · rw [hold]
          exact hgrow _ _ (h.pending_known draw.key held hheld)
      · exact hgrow _ _ (h.pending_known key pending hpending)
    · intro key pending hpending
      exact hgrow _ _ (h.waits_known key pending hpending)
    · intro answer hanswer
      obtain ⟨draw', hdraw', hwhich⟩ := h.log_known answer hanswer
      exact ⟨draw', mem_append_left _ hdraw', hwhich⟩
    · exact h.log_sorted
    · exact h.log_le
    · intro hopen draw' hdraw'
      rcases mem_append.mp hdraw' with hdraw' | hdraw'
      · rcases h.covered hopen draw' hdraw' with ⟨pending, hpending, hle⟩ | hwaits | hlog
        · apply Or.inl
          rw [hget]
          split
          · rename_i hkey
            rw [hkey] at hpending
            exact ⟨_, rfl, hle.trans (hnewer.2.2 pending hpending)⟩
          · exact ⟨pending, hpending, hle⟩
        · apply Or.inr (.inl hwaits)
        · apply Or.inr (.inr hlog)
      · rw [mem_singleton.mp hdraw']
        apply Or.inl
        rw [hget, if_pos rfl]
        exact ⟨_, rfl, hnewer.2.1⟩
    · exact h.remembered
    · exact h.forgotten
  · exact h

theorem get?_applied_prune (queue : Queue κ ω) (now : ℕ) (key : κ) :
  (queue.prune now).applied.get? key = queue.applied.get? key ∨
    (queue.prune now).applied.get? key = none ∧
      ∀ record, queue.applied.get? key = some record → record.2 + appliedRetention ≤ now
  := by
  rw [prune]
  split
  · rw [get?_retain]
    cases hget : queue.applied.get? key with
    | none => apply Or.inl rfl
    | some record =>
    by_cases hlate : now - record.2 < appliedRetention
    · apply Or.inl
      simp [hlate]
    refine .inr ⟨by simpa using hlate, ?_⟩
    rintro _ ⟨rfl⟩
    have hpos : 0 < appliedRetention := by decide
    omega
  · apply Or.inl rfl

theorem Sane.exists_of_isStale (h : world.Sane)
    (hstale : (world.queue.prune now).isStale key write = true) :
  ∃ answer ∈ world.log, answer.key = key ∧ answer.outcome ≠ .refused ∧
    write.sequence < answer.sequence
  := by
  rw [isStale, Option.any_eq_true] at hstale
  obtain ⟨record, hrecord, hlt⟩ := hstale
  rcases get?_applied_prune world.queue now key with hsame | ⟨hnone, -⟩
  · rw [hsame] at hrecord
    have hlast := (h.remembered key record hrecord).mem
    exact ⟨_, hlast.1, rfl, nofun, by simpa using hlt⟩
  · rw [hnone] at hrecord
    simp at hrecord

theorem attempt_cases (queue : Queue κ ω) (now : ℕ) :
  queue.attempt now = queue ∧ (queue.closed = false → queue.retryAt = none → queue.flush ≠ none) ∨
    queue.closed = false ∧ queue.retryAt = none ∧ queue.flush = none ∧
      (queue.attempt now).RefusedOnce ∧
      (queue.attempt now).pending = .empty ∧
      (queue.attempt now).applied = (queue.prune now).applied ∧
      (queue.attempt now).sequence = queue.sequence ∧
      ∀ key write, (queue.attempt now).Waits key write ↔
        (queue.absorb now).backlog.get? key = some write
  := by
  rw [attempt]
  split
  · rename_i hbusy
    refine .inl ⟨rfl, ?_⟩
    rintro hopen hretry hflush
    simp [hopen, hretry, hflush] at hbusy
  rename_i hidle
  simp only [Bool.or_eq_true, not_or, Bool.not_eq_true, Option.isSome_eq_false_iff,
    Option.isNone_iff_eq_none] at hidle
  have hprune : ∀ queue : Queue κ ω, (queue.prune now).pending = queue.pending ∧
      (queue.prune now).sequence = queue.sequence ∧
      ({ queue with pending := .empty }.prune now).applied = (queue.prune now).applied := by
    intro queue
    unfold prune
    split <;> exact ⟨rfl, rfl, rfl⟩
  refine .inr ⟨hidle.1.1, hidle.1.2, hidle.2, ⟨?_, ?_⟩, ?_, ?_, ?_, ?_⟩
  · rintro _ ⟨rfl⟩
    exact nodup_nil
  · rintro _ ⟨rfl⟩
    simp
  · exact (hprune _).1
  · exact (hprune queue).2.2
  · exact (hprune _).2.1
  · intro key write
    simp [Queue.Waits]

variable {queue : Queue κ ω}

theorem backlog_absorb_cases (h : (queue.absorb now).backlog.get? key = some write) :
  queue.backlog.get? key = some write ∨
    ∃ taken, queue.pending.get? key = some taken ∧ (queue.prune now).isStale key taken = false ∧
      write = (queue.backlog.get? key).elim taken (·.newer taken)
  := by
  rw [get?_backlog_absorb] at h
  cases hpending : queue.pending.get? key with
  | none =>
    rw [hpending] at h
    apply Or.inl h
  | some taken =>
    rw [hpending] at h
    dsimp only at h
    cases hstale : (queue.prune now).isStale key taken
    · rw [hstale] at h
      simp only [Bool.false_eq_true, if_false, Option.some_inj] at h
      exact .inr ⟨taken, rfl, hstale, h.symm⟩
    · rw [hstale, if_pos rfl] at h
      apply Or.inl h

theorem le_backlog_absorb {held : PendingWrite ω} (h : queue.backlog.get? key = some held ∨
    queue.pending.get? key = some held ∧ (queue.prune now).isStale key held = false) :
  ∃ write, (queue.absorb now).backlog.get? key = some write ∧ held.sequence ≤ write.sequence
  := by
  rw [get?_backlog_absorb]
  rcases h with hheld | ⟨htaken, hstale⟩
  · cases queue.pending.get? key with
    | none => exact ⟨held, hheld, le_refl _⟩
    | some taken =>
    dsimp only
    split
    · exact ⟨held, hheld, le_refl _⟩
    · exact ⟨_, rfl, (sequence_elim_newer _ taken).2.2 held hheld⟩
  · rw [htaken]
    dsimp only
    rw [hstale, if_neg (by decide)]
    exact ⟨_, rfl, (sequence_elim_newer _ held).2.1⟩

theorem Sane.attempt (h : world.Sane) :
  (world.act .attempt).Sane
  := by
  rw [act]
  rcases attempt_cases world.queue world.clock with ⟨heq, -⟩ | ⟨hopen, -, hflush, hrefused,
    hpending, happlied, hsequence, hwaits⟩
  · rwa [heq]
  have hbacklog : ∀ key write, world.queue.Waits key write ↔
      world.queue.backlog.get? key = some write := by
    simp [Queue.Waits, hflush]
  refine ⟨hrefused, h.draws_sorted, ?_, h.enqueued_drawn, ?_, ?_, h.log_known, h.log_sorted,
    h.log_le, ?_, ?_, ?_⟩
  · rw [hsequence]
    exact h.draws_le
  · rw [hpending]
    simp
  · intro key write hwait
    rw [hwaits] at hwait
    rcases backlog_absorb_cases hwait with hheld | ⟨taken, htaken, -, rfl⟩
    · exact h.waits_known key write ((hbacklog key write).mpr hheld)
    rcases (sequence_elim_newer (world.queue.backlog.get? key) taken).1 with hnew |
      ⟨held, hheld, hold⟩
    · rw [hnew]
      exact h.pending_known key taken htaken
    · rw [hold]
      exact h.waits_known key held ((hbacklog key held).mpr hheld)
  · intro _ draw hdraw
    rcases h.covered hopen draw hdraw with ⟨taken, htaken, hle⟩ | ⟨held, hheld, hle⟩ | hlog
    · cases hstale : (world.queue.prune world.clock).isStale draw.key taken
      · obtain ⟨write, hwrite, hnewer⟩ := le_backlog_absorb (.inr ⟨htaken, hstale⟩)
        exact .inr (.inl ⟨write, (hwaits _ _).mpr hwrite, hle.trans hnewer⟩)
      · obtain ⟨answer, hanswer, hkey, hok, hlt⟩ := h.exists_of_isStale hstale
        exact .inr (.inr ⟨answer, hanswer, hkey, hok, hle.trans hlt.le⟩)
    · obtain ⟨write, hwrite, hnewer⟩ := le_backlog_absorb (.inl ((hbacklog _ _).mp hheld))
      exact .inr (.inl ⟨write, (hwaits _ _).mpr hwrite, hle.trans hnewer⟩)
    · apply Or.inr (.inr hlog)
  · intro key record hrecord
    rw [happlied] at hrecord
    rcases get?_applied_prune world.queue world.clock key with hsame | ⟨hnone, -⟩
    · exact h.remembered key record (hsame ▸ hrecord)
    · rw [hnone] at hrecord
      simp at hrecord
  · intro key hnone answer hanswer hkey hok
    rw [happlied] at hnone
    rcases get?_applied_prune world.queue world.clock key with hsame | ⟨-, hpruned⟩
    · exact h.forgotten key (hsame ▸ hnone) answer hanswer hkey hok
    cases hrecord : world.queue.applied.get? key with
    | none => exact h.forgotten key hrecord answer hanswer hkey hok
    | some record =>
    have hlate := hpruned record hrecord
    rcases (h.remembered key record hrecord).rel h.log_sorted hanswer hkey hok with rfl | hle
    · exact hlate
    · exact (Nat.add_le_add_right hle _).trans hlate

theorem get?_applied_settle (flush : Flush κ ω) (hoffered : queue.Offered results) (now : ℕ)
    (key : κ) :
  (∃ write, ((key, write), .applied) ∈ results ∧
    (queue.settle flush results now).applied.get? key = some (write.sequence, now)) ∨
  (∀ write, ((key, write), .applied) ∉ results) ∧
    (queue.settle flush results now).applied.get? key = queue.applied.get? key
  := by
  generalize happlied : ((results.filter (·.2 = .applied)).map fun result =>
    (result.1.1, (result.1.2.sequence, now))) = applied
  have hnodup : (applied.map Prod.fst).Nodup := by
    rw [← happlied, map_map]
    apply List.Nodup.sublist (filter_sublist.map _) hoffered.nodup
  have hget : (queue.settle flush results now).applied.get? key =
      (applied.lookup key).or (queue.applied.get? key) := by
    rw [← get?_extend _ hnodup, ← happlied]
    rfl
  rw [hget]
  cases hlookup : applied.lookup key with
  | none =>
    refine .inr ⟨?_, rfl⟩
    intro write hmem
    rw [lookup_eq_none_iff] at hlookup
    have hne := hlookup (key, (write.sequence, now)) (by
      rw [← happlied]
      exact mem_map.mpr ⟨((key, write), .applied), by simp [hmem], rfl⟩)
    simp at hne
  | some record =>
    rw [lookup_eq_some_iff hnodup, ← happlied] at hlookup
    obtain ⟨⟨⟨key', write⟩, outcome⟩, hmem, heq⟩ := mem_map.mp hlookup
    obtain ⟨hresult, hok⟩ := mem_filter.mp hmem
    obtain rfl : outcome = .applied := of_decide_eq_true hok
    obtain ⟨rfl, rfl⟩ := Prod.mk.inj heq
    exact .inl ⟨write, hresult, rfl⟩

theorem lastApplied_answers (hoffered : queue.Offered results)
    (h : ((key, write), .applied) ∈ results) (log : List (Answer κ)) :
  LastApplied (log ++ answers results now) key ⟨key, write.sequence, .applied, now⟩
  := by
  obtain ⟨before, after, rfl⟩ := append_of_mem h
  refine ⟨log ++ answers before now, answers after now, ?_, rfl, rfl, ?_⟩
  · simp [answers]
  intro later hlater hkey
  obtain ⟨write', hresult, -, -⟩ := mem_answers hlater
  have hnodup := hoffered.nodup
  rw [map_append, map_cons, nodup_append', nodup_cons] at hnodup
  rw [hkey] at hresult
  exact absurd (mem_map_of_mem hresult) hnodup.2.1.1

theorem Sane.batch (h : world.Sane) (keys : List κ) (outcomes : List Outcome) :
  (world.act (.batch keys outcomes)).Sane
  := by
  rw [act]
  rcases batch_cases world.queue keys outcomes world.clock with heq |
    ⟨flush, results, hflush, hoffered, heq⟩
  · rw [heq]
    dsimp only
    rwa [append_nil]
  rw [heq]
  have hwaits : ∀ key write, (world.queue.settle flush results world.clock).Waits key write ↔
      world.queue.Waits key write ∧
        ∀ outcome, ((key, write), outcome) ∈ results → outcome = .refused :=
    fun _ _ => waits_settle_iff hflush h.refusedOnce hoffered
  have hknown : ∀ answer ∈ answers results world.clock, ∃ draw ∈ world.enqueued,
      draw.key = answer.key ∧ draw.sequence = answer.sequence ∧ draw.time ≤ answer.time := by
    intro answer hanswer
    obtain ⟨write, hresult, hsequence, htime⟩ := mem_answers hanswer
    obtain ⟨draw, hdraw, hkey, hdrawn⟩ :=
      h.waits_known _ _ (Or.inl (hoffered.backlog _ hresult))
    refine ⟨draw, hdraw, hkey, hdrawn.trans hsequence.symm, ?_⟩
    rw [htime]
    exact (h.draws_le draw (h.enqueued_drawn draw hdraw)).2
  refine ⟨h.refusedOnce.settle hflush hoffered world.clock, h.draws_sorted, h.draws_le,
    h.enqueued_drawn, h.pending_known, ?_, ?_, ?_, ?_, ?_, ?_, ?_⟩
  · intro key write hwait
    exact h.waits_known key write ((hwaits key write).mp hwait).1
  · intro answer hanswer
    rcases mem_append.mp hanswer with hanswer | hanswer
    · exact h.log_known answer hanswer
    · exact hknown answer hanswer
  · rw [pairwise_append]
    refine ⟨h.log_sorted, ?_, ?_⟩
    · apply pairwise_of_forall_mem_list
      intro a ha b hb
      obtain ⟨-, -, -, hatime⟩ := mem_answers ha
      obtain ⟨-, -, -, hbtime⟩ := mem_answers hb
      rw [hatime, hbtime]
    · intro a ha b hb
      obtain ⟨-, -, -, hbtime⟩ := mem_answers hb
      rw [hbtime]
      exact h.log_le a ha
  · intro answer hanswer
    rcases mem_append.mp hanswer with hanswer | hanswer
    · exact h.log_le answer hanswer
    · obtain ⟨-, -, -, htime⟩ := mem_answers hanswer
      exact htime.le
  · intro hopen draw hdraw
    rcases h.covered hopen draw hdraw with hpending | ⟨write, hwait, hle⟩ | ⟨answer, hanswer, hrest⟩
    · apply Or.inl hpending
    · by_cases hkept : ∀ outcome, ((draw.key, write), outcome) ∈ results → outcome = .refused
      · exact Or.inr (Or.inl ⟨write, (hwaits _ _).mpr ⟨hwait, hkept⟩, hle⟩)
      · push Not at hkept
        obtain ⟨outcome, hresult, hne⟩ := hkept
        apply Or.inr (Or.inr _)
        exact ⟨_, mem_append_right _ (mem_map_of_mem hresult), rfl, hne, hle⟩
    · exact Or.inr (Or.inr ⟨answer, mem_append_left _ hanswer, hrest⟩)
  · intro key record hrecord
    rcases get?_applied_settle flush hoffered world.clock key with ⟨write, hresult, hnew⟩ |
      ⟨hnone, hold⟩
    · rw [hnew, Option.some_inj] at hrecord
      rw [← hrecord]
      exact lastApplied_answers hoffered hresult world.log
    rw [hold] at hrecord
    apply (h.remembered key record hrecord).append
    intro later hlater hkey hok
    obtain ⟨write, hresult, -, -⟩ := mem_answers hlater
    rw [hkey, hok] at hresult
    exact hnone write hresult
  · intro key hforgot answer hanswer hkey hok
    rcases get?_applied_settle flush hoffered world.clock key with ⟨write, -, hnew⟩ |
      ⟨hnone, hold⟩
    · rw [hnew] at hforgot
      simp at hforgot
    rcases mem_append.mp hanswer with hanswer | hanswer
    · exact h.forgotten key (hold.symm.trans hforgot) answer hanswer hkey hok
    · obtain ⟨write, hresult, -, -⟩ := mem_answers hanswer
      rw [hkey, hok] at hresult
      exact absurd hresult (hnone write)

theorem Sane.endFlush (h : world.Sane) :
  (world.act .endFlush).Sane
  := by
  have hframe : (world.queue.endFlush world.clock).pending = world.queue.pending ∧
      (world.queue.endFlush world.clock).applied = world.queue.applied ∧
      (world.queue.endFlush world.clock).sequence = world.queue.sequence ∧
      (world.queue.endFlush world.clock).closed = world.queue.closed := by
    unfold Queue.endFlush
    cases world.queue.flush with
    | none => exact ⟨rfl, rfl, rfl, rfl⟩
    | some flush =>
    dsimp only
    split
    · split <;> exact ⟨rfl, rfl, rfl, rfl⟩
    · exact ⟨rfl, rfl, rfl, rfl⟩
  exact h.of_same (h.refusedOnce.endFlush world.clock) hframe.1
    (fun _ _ => Queue.waits_endFlush_iff h.refusedOnce) hframe.2.1 hframe.2.2.1 hframe.2.2.2
    (le_refl _)

theorem Sane.withRetryAt (h : world.Sane) (retryAt : Option ℕ) :
  Sane { world with queue := { world.queue with retryAt := retryAt } }
  := h.of_same ⟨h.refusedOnce.nodup, h.refusedOnce.out⟩ rfl (fun _ _ => Iff.rfl) rfl rfl rfl
    (le_refl _)

/-- What is left is lost when the drainer ends. -/
theorem Sane.drop (h : world.Sane) :
  (world.act .drop).Sane
  := { h with
    refusedOnce := ⟨by rintro _ ⟨⟩, by rintro _ ⟨⟩⟩
    pending_known := by rintro _ _ ⟨⟩
    waits_known := by rintro _ _ (⟨⟨⟩⟩ | ⟨_, ⟨⟩, -⟩)
    covered := by rintro ⟨⟩ }

theorem Sane.act (h : world.Sane) (action : Action κ ω) :
  (world.act action).Sane
  := by
  cases action with
  | draw key => exact h.draw key
  | enqueue draw write sawClosed => exact h.enqueue draw write sawClosed
  | attempt => exact h.attempt
  | batch keys outcomes => exact h.batch keys outcomes
  | endFlush => exact h.endFlush
  | retry =>
    rw [World.act, retry]
    split
    · exact h.withRetryAt none
    · exact h
  | finish => exact h.withRetryAt none
  | drop => exact h.drop

theorem sane_new (clock : ℕ) :
  (World.new clock : World κ ω).Sane
  := by
  constructor <;> simp [World.new, Queue.Waits]
  constructor <;> simp

/-! ### Order -/

/-- Nothing waits to be applied: the queue has drained. -/
def Drained (world : World κ ω) : Prop :=
  (∀ key, world.queue.pending.get? key = none) ∧ ∀ key write, ¬ world.queue.Waits key write

/-- The store could encode every write. -/
def Encoded (world : World κ ω) : Prop :=
  ∀ answer ∈ world.log, answer.outcome ≠ .unencodable

omit [DecidableEq κ] in
theorem Encoded.applied (h : world.Encoded) {answer : Answer κ} (hanswer : answer ∈ world.log)
    (hnot : answer.outcome ≠ .refused) :
  answer.outcome = .applied
  := by
  have hencoded := h answer hanswer
  cases houtcome : answer.outcome <;> simp_all

/-- The store was offered no older write of a key after a newer one, what waits is not older than
what was offered, and of a drained queue the last write of each key was applied last, if nothing was
dropped. -/
structure InOrder (world : World κ ω) : Prop where
  forward : world.log.Pairwise fun a b => a.key = b.key → a.sequence ≤ b.sequence
  fresh : ∀ key write, world.queue.Waits key write → ∀ answer ∈ world.log, answer.key = key →
    answer.sequence ≤ write.sequence
  highest : world.queue.closed = false → world.Encoded → world.Drained →
    ∀ draw ∈ world.enqueued, ∃ answer, LastApplied world.log draw.key answer ∧
      draw.sequence ≤ answer.sequence ∧ world.Enqueued draw.key answer.sequence

section

variable (h : world.Sane)
  (hforward : world.log.Pairwise fun a b => a.key = b.key → a.sequence ≤ b.sequence)
include h hforward

theorem Sane.highest (hopen : world.queue.closed = false) (hencoded : world.Encoded)
    (hdrained : world.Drained) {draw : Draw κ} (hdraw : draw ∈ world.enqueued) :
  ∃ answer, LastApplied world.log draw.key answer ∧ draw.sequence ≤ answer.sequence ∧
    world.Enqueued draw.key answer.sequence
  := by
  rcases h.covered hopen draw hdraw with ⟨write, hpending, -⟩ | ⟨write, hwait, -⟩ |
    ⟨answer, hanswer, hkey, hnot, hle⟩
  · rw [hdrained.1] at hpending
    simp at hpending
  · exact absurd hwait (hdrained.2 _ _)
  · have hok := hencoded.applied hanswer hnot
    obtain ⟨last, hlast⟩ := exists_lastApplied hanswer hkey hok
    obtain ⟨hmem, hlkey, -⟩ := hlast.mem
    obtain ⟨draw', hdraw', hkey', hsequence, -⟩ := h.log_known last hmem
    refine ⟨last, hlast, ?_, draw', hdraw', hkey'.trans hlkey, hsequence⟩
    rcases hlast.rel hforward hanswer hkey hok with rfl | hrel
    · exact hle
    · exact hle.trans (hrel (hkey.trans hlkey.symm))

theorem inOrder_of
    (hfresh : ∀ key write, world.queue.Waits key write → ∀ answer ∈ world.log, answer.key = key →
      answer.sequence ≤ write.sequence) :
  world.InOrder
  := ⟨hforward, hfresh,
    fun hopen hencoded hdrained _ => h.highest hforward hopen hencoded hdrained⟩

end

/-- When a pass begins: a write that the drainer takes for a key without a backlog is newer than
what the store was offered, unless it is known to be stale. -/
def Remembers (world : World κ ω) : Prop :=
  world.queue.closed = false → world.queue.retryAt = none → world.queue.flush = none →
    ∀ key write, world.queue.pending.get? key = some write → world.queue.backlog.get? key = none →
      (world.queue.prune world.clock).isStale key write = false →
      ∀ answer ∈ world.log, answer.key = key → answer.sequence ≤ write.sequence

/-- When a pass begins: each write could be encoded so far, and each that waits had its number drawn
within the retention period. -/
def Timely (world : World κ ω) : Prop :=
  world.Encoded ∧ ∀ key write, world.queue.pending.get? key = some write → ∀ draw ∈ world.draws,
    draw.sequence = write.sequence → world.clock < draw.time + appliedRetention

theorem inOrder_attempt_iff (h : world.Sane) (horder : world.InOrder) :
  (world.act .attempt).InOrder ↔ world.Remembers
  := by
  rcases attempt_cases world.queue world.clock with ⟨heq, hbusy⟩ |
    ⟨hopen, hretry, hflush, -, -, -, -, hwaits⟩
  · rw [act, heq, iff_true_left horder]
    intro hopen hretry hflush
    exact absurd hflush (hbusy hopen hretry)
  have hbacklog : ∀ key write, world.queue.backlog.get? key = some write →
      world.queue.Waits key write := fun _ _ => .inl
  constructor
  · intro hnext _ _ _ key write hpending hnone hstale answer hanswer hkey
    apply hnext.fresh key write _ answer hanswer hkey
    apply (hwaits key write).mpr
    rw [get?_backlog_absorb, hpending, hnone]
    dsimp only
    rw [hstale, if_neg (by decide)]
    rfl
  · intro hremembers
    apply inOrder_of h.attempt horder.forward
    intro key write hwait answer hanswer hkey
    rcases backlog_absorb_cases ((hwaits key write).mp hwait) with hheld |
      ⟨taken, htaken, hstale, rfl⟩
    · exact horder.fresh key write (hbacklog key write hheld) answer hanswer hkey
    cases hheld : world.queue.backlog.get? key with
    | none => exact hremembers hopen hretry hflush key taken htaken hheld hstale answer hanswer hkey
    | some held =>
    exact (horder.fresh key held (hbacklog key held hheld) answer hanswer hkey).trans
      ((sequence_elim_newer _ taken).2.2 held rfl)

theorem InOrder.batch (h : world.Sane) (horder : world.InOrder) (keys : List κ)
    (outcomes : List Outcome) :
  (world.act (.batch keys outcomes)).InOrder
  := by
  have hsane := h.batch keys outcomes
  rw [act] at hsane ⊢
  rcases batch_cases world.queue keys outcomes world.clock with heq |
    ⟨flush, results, hflush, hoffered, heq⟩
  · rw [heq]
    dsimp only
    rwa [append_nil]
  rw [heq] at hsane ⊢
  have hanswer : ∀ answer ∈ answers results world.clock, ∃ write,
      world.queue.backlog.get? answer.key = some write ∧ answer.sequence = write.sequence := by
    intro answer hanswer
    obtain ⟨write, hresult, hsequence, -⟩ := mem_answers hanswer
    exact ⟨write, hoffered.backlog _ hresult, hsequence⟩
  apply inOrder_of hsane
  · rw [pairwise_append]
    refine ⟨horder.forward, ?_, ?_⟩
    · -- The keys of a batch are distinct.
      rw [answers, pairwise_map]
      apply (pairwise_map.mp hoffered.nodup).imp
      intro a b hne hkey
      exact absurd hkey hne
    · intro a ha b hb hkey
      obtain ⟨write, hget, hsequence⟩ := hanswer b hb
      rw [hsequence]
      exact horder.fresh b.key write (.inl hget) a ha hkey
  · intro key write hwait answer hmem hkey
    have hbefore := ((waits_settle_iff hflush h.refusedOnce hoffered).mp hwait).1
    rcases mem_append.mp hmem with hmem | hmem
    · exact horder.fresh key write hbefore answer hmem hkey
    obtain ⟨write', hget, hsequence⟩ := hanswer answer hmem
    rw [hkey] at hget
    rcases hbefore with hheld | ⟨flush', hflush', hrefused⟩
    · rw [hget, Option.some_inj] at hheld
      rw [hsequence, hheld]
    · rw [h.refusedOnce.out flush' hflush' _ hrefused] at hget
      simp at hget

theorem Sane.time_le_of_sequence_lt (h : world.Sane) {a b : Draw κ} (ha : a ∈ world.draws)
    (hb : b ∈ world.draws) (hlt : a.sequence < b.sequence) :
  a.time ≤ b.time
  := by
  have hall := List.Pairwise.forall_of_forall_of_flip
    (R := fun a b : Draw κ => a.sequence < b.sequence → a.time ≤ b.time) (l := world.draws)
    (fun _ _ _ => le_refl _) (h.draws_sorted.imp fun hab _ => hab.2)
    (h.draws_sorted.imp fun hab hba => absurd hba hab.1.not_gt)
  exact hall ha hb hlt

/-- A write taken in time is not older than a forgotten one. -/
theorem Timely.remembers (htimely : world.Timely) (h : world.Sane) (horder : world.InOrder) :
  world.Remembers
  := by
  intro hopen _ hflush key write hpending hnone hstale answer hanswer hkey
  by_contra hlt
  -- The newer write was applied, as nothing of the key waits but the older one.
  have happlied : ∃ other ∈ world.log, other.key = key ∧ other.outcome = .applied ∧
      write.sequence < other.sequence := by
    obtain ⟨draw, hdraw, hdkey, hdsequence, -⟩ := h.log_known answer hanswer
    rcases h.covered hopen draw hdraw with ⟨taken, htaken, hle⟩ | ⟨held, hheld, -⟩ |
      ⟨other, hother, hokey, hnot, hle⟩
    · rw [hdkey, hkey, hpending, Option.some_inj] at htaken
      rw [← htaken] at hle
      omega
    · rw [hdkey, hkey, Queue.Waits, hnone, hflush] at hheld
      simp at hheld
    · exact ⟨other, hother, hokey.trans (hdkey.trans hkey), htimely.1.applied hother hnot, by omega⟩
  obtain ⟨other, hother, hokey, hok, hnewer⟩ := happlied
  -- Its number was drawn later, so it is remembered.
  obtain ⟨draw, hdraw, -, hdsequence⟩ := h.pending_known key write hpending
  have hlate := htimely.2 key write hpending draw (h.enqueued_drawn draw hdraw) hdsequence
  have htime : ∀ a ∈ world.log, write.sequence < a.sequence → draw.time ≤ a.time := by
    intro a ha halt
    obtain ⟨draw', hdraw', -, hasequence, hatime⟩ := h.log_known a ha
    have hle := h.time_le_of_sequence_lt (h.enqueued_drawn draw hdraw)
      (h.enqueued_drawn draw' hdraw') (by omega)
    exact hle.trans hatime
  cases hrecord : world.queue.applied.get? key with
  | none =>
    have hforgot := h.forgotten key hrecord other hother hokey hok
    have hle := htime other hother hnewer
    omega
  | some record =>
    have hlast := h.remembered key record hrecord
    have hrnewer : write.sequence < record.1 := by
      rcases hlast.rel horder.forward hother hokey hok with rfl | hrel
      · exact hnewer
      · exact hnewer.trans_le (hrel hokey)
    have hle := htime _ hlast.mem.1 hrnewer
    rcases get?_applied_prune world.queue world.clock key with hsame | ⟨-, hpruned⟩
    · simp [isStale, hsame, hrecord] at hstale
      omega
    · have hforgot := hpruned record hrecord
      dsimp only at hle
      omega

/-! ### Runs -/

/-- The condition on a step of the machine: what a pass takes is in order. -/
def StepRemembers (world : World κ ω) (input : ℕ × Action κ ω) : Prop :=
  input.2 = .attempt → Remembers { world with clock := world.clock + input.1 }

/-- The condition on a step of the machine: what a pass takes is taken in time. -/
def StepTimely (world : World κ ω) (input : ℕ × Action κ ω) : Prop :=
  input.2 = .attempt → Timely { world with clock := world.clock + input.1 }

theorem InOrder.tick (h : world.InOrder) (elapsed : ℕ) :
  InOrder { world with clock := world.clock + elapsed }
  := ⟨h.forward, h.fresh, h.highest⟩

theorem InOrder.act (horder : world.InOrder) (h : world.Sane) {action : Action κ ω}
    (hne : action ≠ .attempt) :
  (world.act action).InOrder
  := by
  have hsane := h.act action
  have hsame : ∀ next : World κ ω, next.Sane → next.log = world.log →
      (∀ key write, next.queue.Waits key write ↔ world.queue.Waits key write) → next.InOrder := by
    intro next hnext hlog hwaits
    apply inOrder_of hnext
    · rw [hlog]
      exact horder.forward
    · intro key write hwait
      rw [hlog]
      exact horder.fresh key write ((hwaits key write).mp hwait)
  cases action with
  | draw key | finish => exact hsame _ hsane rfl fun _ _ => Iff.rfl
  | enqueue draw write sawClosed =>
    revert hsane
    rw [World.act]
    split
    · exact fun hsane => hsame _ hsane rfl fun _ _ => Iff.rfl
    · exact fun _ => horder
  | attempt => exact absurd rfl hne
  | batch keys outcomes => exact horder.batch h keys outcomes
  | endFlush => exact hsame _ hsane rfl fun _ _ => waits_endFlush_iff h.refusedOnce
  | retry =>
    revert hsane
    rw [World.act, retry]
    split
    · exact fun hsane => hsame _ hsane rfl fun _ _ => Iff.rfl
    · exact fun _ => horder
  | drop =>
    apply inOrder_of hsane horder.forward
    rintro _ _ (⟨⟨⟩⟩ | ⟨_, ⟨⟩, -⟩)

/-- Just the steps that remember keep the order. -/
theorem inOrder_step_iff (h : world.Sane) (horder : world.InOrder) (input : ℕ × Action κ ω) :
  (machine.step world input).1.InOrder ↔ world.StepRemembers input
  := by
  obtain ⟨elapsed, action⟩ := input
  by_cases hattempt : action = .attempt
  · subst hattempt
    rw [StepRemembers, imp_iff_right rfl]
    exact inOrder_attempt_iff (h.tick elapsed) (horder.tick elapsed)
  · apply iff_of_true
    · exact (horder.tick elapsed).act (h.tick elapsed) hattempt
    · intro heq
      exact absurd heq hattempt

end World

open World

/-- The queue stays sane whatever happens. -/
theorem sane_invariant :
  (machine : Machine (World κ ω) _ _).Invariant World.Sane
  := fun _ input h => (h.tick input.1).act input.2

/-- The store gets the writes in order in exactly the runs in which no pass takes a write older than
one that was applied and is forgotten; so in those in which each write can be encoded and is taken
within the retention period of the drawing of its number. -/
theorem writes_in_order_iff (clock : ℕ) (inputs : List (ℕ × Action κ ω)) :
  ((∀ before, before <+: inputs → (machine.run (new clock) before).InOrder) ↔
    ∀ before input, before ++ [input] <+: inputs →
      (machine.run (new clock) before).StepRemembers input) ∧
  ((∀ before input, before ++ [input] <+: inputs →
      (machine.run (new clock) before).StepTimely input) →
    ∀ before, before <+: inputs → (machine.run (new clock) before).InOrder)
  := by
  have hnew : (new clock : World κ ω).InOrder := by
    constructor <;> simp [new, Queue.Waits]
  have hiff := sane_invariant.run_iff
    (fun _ input h horder => inOrder_step_iff h horder input) (sane_new clock) hnew
    inputs
  refine ⟨hiff, ?_⟩
  intro htimely before
  induction before using List.reverseRecOn with
  | nil => exact fun _ => hnew
  | append_singleton before input ih =>
  intro hpre
  have horder := ih ((prefix_append before [input]).trans hpre)
  have hsane := sane_invariant.run (sane_new clock) before
  rw [Machine.run_append]
  apply (inOrder_step_iff hsane horder input).mpr
  intro hattempt
  exact (htimely before input hpre hattempt).remembers (hsane.tick _) (horder.tick _)

/-- Two writes of key 1 get their numbers, and the newer one is applied at once.  The older one is
enqueued four seconds later, while the store is slow to answer for key 2; the pass that takes it a
second later has just forgotten the newer one. -/
def lateWrite : List (ℕ × Action ℕ Unit) :=
  [(0, .draw 1), (0, .draw 1), (0, .enqueue ⟨2, 1, 0⟩ () false), (0, .attempt),
    (0, .batch [1] [.applied]), (0, .endFlush), (3500, .draw 2),
    (0, .enqueue ⟨3, 2, 3500⟩ () false), (0, .attempt), (500, .enqueue ⟨1, 1, 0⟩ () false),
    (1000, .batch [2] [.applied]), (0, .endFlush), (0, .attempt), (0, .batch [1] [.applied]),
    (0, .endFlush)]

/-- The older write of key 1 is applied last, and the queue has drained. -/
theorem lateWrite_applied_last :
  (machine.run (new 0) lateWrite).log =
      [⟨1, 2, .applied, 0⟩, ⟨2, 3, .applied, 5000⟩, ⟨1, 1, .applied, 5000⟩] ∧
    (machine.run (new 0) lateWrite).queue.pending.entries = [] ∧
    (machine.run (new 0) lateWrite).queue.backlog.entries = [] ∧
    (machine.run (new 0) lateWrite).queue.flush = none
  := by
  decide +kernel

end Siphon.WriteBehind
