import Siphon.Auth.Challenges

/-!
# An answer is accepted once

In a run in which no two SIP Digest challenges are made from clashing sources, a pair of nonce and
count is accepted at most once, a nonce is not accepted after an answer to it has failed, and a
challenge leaves every other live one as it is.
-/

namespace Siphon.Auth

open List AuthVectorStore

namespace DigestEvent

def acceptedPair : DigestEvent → Option (Text × ℕ)
  | .accepted nonce count _ _ => some (nonce, count)
  | _ => none

def failedNonce : DigestEvent → Option Text
  | .failed nonce _ => some nonce
  | _ => none

def nonceSource : DigestEvent → Option NonceSource
  | .challenged source _ _ => some source
  | _ => none

/-- A nonce is not accepted after an answer to it has failed. -/
def Settles (earlier later : DigestEvent) : Prop :=
  ∀ nonce, earlier.failedNonce = some nonce → ∀ count, later.acceptedPair ≠ some (nonce, count)

end DigestEvent

open DigestEvent

/-- When a challenge would be stored. -/
def DigestInput.now : DigestInput → ℕ
  | .register clock _ _ _ => clock.insert
  | .challengeAka now _ _ => now
  | .takeAka now _ => now
  | .resync _ => 0

/-! ### What a step can do -/

section

variable {store : AuthVectorStore} {nonce other : Text} {entry : SipDigestEntry} {now : ℕ}

variable {found : Pending}

theorem get?_insertPending {pending : Pending}
    (h : (store.insertPending now nonce pending).vectors.get? other = some found) :
  other = nonce ∧ found = pending ∨ store.vectors.get? other = some found
  := by
  rw [insertPending, IndexMap.get?_insert] at h
  split at h
  · exact .inl ⟨‹_›, (Option.some.inj h).symm⟩
  split at h
  · rw [IndexMap.get?_retain, Option.filter_eq_some_iff] at h
    exact .inr h.1
  · exact .inr h

theorem get?_insertPending_of_isLive {pending : Pending} (hne : other ≠ nonce)
    (hlive : found.isLive now = true) (h : store.vectors.get? other = some found) :
  (store.insertPending now nonce pending).vectors.get? other = some found
  := by
  rw [insertPending, IndexMap.get?_insert, if_neg hne]
  split
  · rw [IndexMap.get?_retain, h, Option.filter_some, if_pos hlive]
  · exact h

theorem get?_forget (h : (store.forget nonce).vectors.get? other = some found) :
  other ≠ nonce ∧ store.vectors.get? other = some found
  := by
  rw [forget, IndexMap.get?_shiftRemove] at h
  split at h
  · cases h
  · exact ⟨‹_›, h⟩

theorem get?_take (h : (store.take now nonce).1.vectors.get? other = some found) :
  store.vectors.get? other = some found
  := by
  rw [AuthVectorStore.take] at h
  split at h
  · exact (get?_forget h).2
  · exact h

theorem digest_eq_some {challenge : SipDigestChallenge} {answered : Bool}
    (h : store.digest now nonce = some (challenge, answered)) :
  ∃ entry, store.vectors.get? nonce = some (.sipDigest entry)
  := by
  rw [digest] at h
  split at h
  · exact ⟨_, ‹_›⟩
  · cases h

theorem recordNonceCount_cases (store : AuthVectorStore) (now : ℕ) (nonce : Text)
    (count lifetime : ℕ) :
  (∃ entry, store.vectors.get? nonce = some (.sipDigest entry) ∧ entry.lastNonceCount < count
      ∧ store.recordNonceCount now nonce count lifetime
        = ({ store with
              vectors := store.vectors.insert nonce
                (.sipDigest { entry with lastNonceCount := count, validUntil := now + lifetime }) },
            .accepted))
    ∨ ∃ outcome, outcome ≠ .accepted
      ∧ store.recordNonceCount now nonce count lifetime = (store, outcome)
  := by
  fun_cases recordNonceCount store now nonce count lifetime with
  | case1 h | case2 pending h hlive | case5 vector h hlive => exact .inr ⟨.unknown, by decide, rfl⟩
  | case3 entry hcount next h hlive => exact .inl ⟨_, h, hcount, rfl⟩
  | case4 entry hcount h hlive => exact .inr ⟨.replayed, by decide, rfl⟩

end

section

variable [StdDigest] {auth : NonceConfig} {nonceLifetime : ℕ}

inductive ChallengeStep (auth : NonceConfig) (now : ℕ) (store : AuthVectorStore) :
    AuthVectorStore → List DigestEvent → Prop where
  /-- No SIP Digest challenge is new or changed. -/
  | quiet {next : AuthVectorStore} {events : List DigestEvent}
      (kept : ∀ nonce entry, next.vectors.get? nonce = some (.sipDigest entry) →
        store.vectors.get? nonce = some (.sipDigest entry))
      (silent : ∀ event ∈ events,
        event.acceptedPair = none ∧ event.failedNonce = none ∧ event.nonceSource = none) :
      ChallengeStep auth now store next events
  | accept {nonce authUser authenticationInfo : Text} {entry : SipDigestEntry}
      {count validUntil : ℕ} (pending : store.vectors.get? nonce = some (.sipDigest entry))
      (higher : entry.lastNonceCount < count) :
      ChallengeStep auth now store
        { store with
          vectors := store.vectors.insert nonce
            (.sipDigest { entry with lastNonceCount := count, validUntil }) }
        [.accepted nonce count authUser authenticationInfo]
  | fail {nonce : Text} {entry : SipDigestEntry} {reason : String}
      (pending : store.vectors.get? nonce = some (.sipDigest entry)) :
      ChallengeStep auth now store (store.forget nonce) [.failed nonce reason]
  | challenge {source : NonceSource} {challenge : SipDigestChallenge}
      {values : List Text} :
      ChallengeStep auth now store
        (store.insertDigest now (generateNonce auth source) challenge)
        [.challenged source challenge values]

theorem challengeStep_challengeWith (store : AuthVectorStore) (now : ℕ)
    (randAndAutn expectedResponse : Bytes) :
  ChallengeStep auth now store (challengeWith store now randAndAutn expectedResponse).1
    (challengeWith store now randAndAutn expectedResponse).2
  := by
  refine .quiet ?_ (by simp [challengeWith, acceptedPair, failedNonce,
    nonceSource])
  intro nonce entry h
  rcases get?_insertPending h with ⟨-, hentry⟩ | h
  · cases hentry
  · exact h

theorem challengeStep_refused (now : ℕ) (store : AuthVectorStore) :
  ChallengeStep auth now store store [.refused]
  := .quiet (fun _ _ h => h) (by simp [acceptedPair, failedNonce,
    nonceSource])

variable [StdText]

theorem challengeStep_answerToChallenge {store : AuthVectorStore} {answer : DigestAnswer}
    {entry : SipDigestEntry} (h : store.vectors.get? answer.nonce = some (.sipDigest entry))
    (clock : StoreClock) (source : NonceSource) (register : Register)
    (challenge : SipDigestChallenge) (answeredBefore : Bool) :
  ChallengeStep auth clock.insert store
    (answerToChallenge auth nonceLifetime store clock source register challenge answeredBefore
      answer).1
    (answerToChallenge auth nonceLifetime store clock source register challenge answeredBefore
      answer).2
  := by
  rw [answerToChallenge]
  split
  · exact .fail h
  rename_i verified _
  rcases recordNonceCount_cases store clock.record answer.nonce verified.nonceCount nonceLifetime
    with ⟨entry, hentry, hcount, heq⟩ | ⟨outcome, hne, heq⟩
  · rw [heq]
    exact .accept hentry hcount
  rw [heq]
  split
  · rename_i hpair
    cases hpair
    exact absurd rfl hne
  · rename_i hpair
    cases hpair
    exact .challenge

variable (store : AuthVectorStore)

theorem challengeStep_askAndChallenge (clock : StoreClock) (source : NonceSource)
    (register : Register) (hss : HssAnswer) :
  ChallengeStep auth clock.insert store (askAndChallenge auth store clock source register hss).1
    (askAndChallenge auth store clock source register hss).2
  := by
  fun_cases askAndChallenge auth store clock source register hss with
  | case1 | case2 => exact .challenge
  | case3 vector answer hanswer hcheck | case5 => apply challengeStep_refused
  | case4 randAndAutn expectedResponse => apply challengeStep_challengeWith

theorem challengeStep_step (input : DigestInput) :
  ChallengeStep auth input.now store ((challengeMachine auth nonceLifetime).step store input).1
    ((challengeMachine auth nonceLifetime).step store input).2
  := by
  cases input with
  | register clock source register hss =>
    simp only [challengeMachine, sipDigestFlow]
    split
    · rename_i answer challenge answeredBefore hpending
      simp only [Option.bind_eq_bind, Option.bind_eq_some_iff] at hpending
      obtain ⟨found, -, ⟨_, _⟩, hdigest, hif⟩ := hpending
      split at hif
      · cases hif
        obtain ⟨entry, hentry⟩ := digest_eq_some hdigest
        exact challengeStep_answerToChallenge hentry clock source register _ _
      · cases hif
    · apply challengeStep_askAndChallenge
  | challengeAka now randAndAutn expectedResponse => apply challengeStep_challengeWith
  | takeAka now nonce => exact .quiet (fun _ _ h => get?_take h) (by simp [challengeMachine])
  | resync nonce => exact .quiet (fun _ _ h => (get?_forget h).2) (by simp [challengeMachine])

end

/-! ### What a run keeps -/

/-- No two challenges were made from sources that clash. -/
def Unclashing (auth : NonceConfig) (log : List DigestEvent) : Prop :=
  (log.filterMap nonceSource).Pairwise fun a b => ¬ a.Clashes auth b

instance (auth : NonceConfig) (log : List DigestEvent) : Decidable (Unclashing auth log) :=
  inferInstanceAs (Decidable (List.Pairwise _ _))

variable {log : List DigestEvent}

section

variable {auth : NonceConfig} {events : List DigestEvent} (h : Unclashing auth (log ++ events))
include h

theorem Unclashing.of_append :
  Unclashing auth log
  := by
  rw [Unclashing, filterMap_append, pairwise_append] at h
  exact h.1

theorem Unclashing.not_clashes {a b : NonceSource} (ha : a ∈ log.filterMap nonceSource)
    (hb : b ∈ events.filterMap nonceSource) :
  ¬ a.Clashes auth b
  := by
  rw [Unclashing, filterMap_append, pairwise_append] at h
  exact h.2.2 a ha b hb

end

def Issued [StdDigest] (auth : NonceConfig) (log : List DigestEvent) (nonce : Text) : Prop :=
  ∃ source ∈ log.filterMap nonceSource, generateNonce auth source = nonce

/-- What the events so far and the store have to do with each other. -/
structure Recorded [StdDigest] (auth : NonceConfig) (log : List DigestEvent)
    (store : AuthVectorStore) : Prop where
  issued : ∀ nonce entry, store.vectors.get? nonce = some (.sipDigest entry) →
    Issued auth log nonce
  /-- No accepted count is above the last one. -/
  counted : ∀ nonce entry, store.vectors.get? nonce = some (.sipDigest entry) →
    ∀ count, (nonce, count) ∈ log.filterMap acceptedPair →
      count ≤ entry.lastNonceCount
  gone : ∀ nonce ∈ log.filterMap failedNonce,
    ∀ entry, store.vectors.get? nonce ≠ some (.sipDigest entry)
  acceptedIssued : ∀ nonce count, (nonce, count) ∈ log.filterMap acceptedPair →
    Issued auth log nonce
  failedIssued : ∀ nonce ∈ log.filterMap failedNonce, Issued auth log nonce
  once : (log.filterMap acceptedPair).Nodup
  settled : log.Pairwise DigestEvent.Settles

theorem pairwise_settles_append (h : log.Pairwise DigestEvent.Settles) {event : DigestEvent}
    (hevent : ∀ nonce ∈ log.filterMap failedNonce,
      ∀ count, event.acceptedPair ≠ some (nonce, count)) :
  (log ++ [event]).Pairwise DigestEvent.Settles
  := by
  refine pairwise_append.mpr ⟨h, pairwise_singleton _ _, ?_⟩
  intro earlier hearlier later hlater nonce hnonce
  obtain rfl := mem_singleton.mp hlater
  exact hevent nonce (mem_filterMap.mpr ⟨earlier, hearlier, hnonce⟩)

section

variable [StdDigest] {auth : NonceConfig} {log events : List DigestEvent}
  {store next : AuthVectorStore} {nonce : Text} {entry : SipDigestEntry} {now : ℕ}

theorem Issued.append (h : Issued auth log nonce) (events : List DigestEvent) :
  Issued auth (log ++ events) nonce
  := by
  obtain ⟨source, hmem, heq⟩ := h
  refine ⟨source, ?_, heq⟩
  rw [filterMap_append]
  exact mem_append_left _ hmem

section

variable (h : Recorded auth log store)

include h

theorem Recorded.quiet (kept : ∀ nonce entry, next.vectors.get? nonce = some (.sipDigest entry) →
      store.vectors.get? nonce = some (.sipDigest entry))
    (silent : ∀ event ∈ events,
      event.acceptedPair = none ∧ event.failedNonce = none ∧ event.nonceSource = none) :
  Recorded auth (log ++ events) next
  := by
  have haccepted : (log ++ events).filterMap acceptedPair
      = log.filterMap acceptedPair := by
    rw [filterMap_append, filterMap_eq_nil_iff.mpr fun e he => (silent e he).1,
      append_nil]
  have hfailed : (log ++ events).filterMap failedNonce
      = log.filterMap failedNonce := by
    rw [filterMap_append, filterMap_eq_nil_iff.mpr fun e he => (silent e he).2.1,
      append_nil]
  refine ⟨?_, ?_, ?_, ?_, ?_, ?_, ?_⟩
  · exact fun nonce entry hget => (h.issued nonce entry (kept nonce entry hget)).append events
  · rw [haccepted]
    exact fun nonce entry hget => h.counted nonce entry (kept nonce entry hget)
  · rw [hfailed]
    exact fun nonce hmem entry hget => h.gone nonce hmem entry (kept nonce entry hget)
  · rw [haccepted]
    exact fun nonce count hmem => (h.acceptedIssued nonce count hmem).append events
  · rw [hfailed]
    exact fun nonce hmem => (h.failedIssued nonce hmem).append events
  · rw [haccepted]
    exact h.once
  · refine pairwise_append.mpr ⟨h.settled, ?_, ?_⟩
    · refine pairwise_of_forall_mem_list ?_
      intro earlier hearlier later _ nonce hnonce
      rw [(silent earlier hearlier).2.1] at hnonce
      cases hnonce
    · intro earlier _ later hlater nonce _ count
      rw [(silent later hlater).1]
      nofun

/-- A higher count is a new one. -/
theorem Recorded.accept (pending : store.vectors.get? nonce = some (.sipDigest entry)) {count : ℕ}
    (higher : entry.lastNonceCount < count) (validUntil : ℕ) (authUser authenticationInfo : Text) :
  Recorded auth (log ++ [.accepted nonce count authUser authenticationInfo])
    { store with
      vectors := store.vectors.insert nonce
        (.sipDigest { entry with lastNonceCount := count, validUntil }) }
  := by
  have haccepted : (log ++ [accepted nonce count authUser authenticationInfo]).filterMap
      acceptedPair = log.filterMap acceptedPair ++ [(nonce, count)] :=
    filterMap_append
  have hfailed : (log ++ [accepted nonce count authUser authenticationInfo]).filterMap
      failedNonce = log.filterMap failedNonce :=
    filterMap_append.trans (append_nil _)
  have hlast : ∀ earlier, (nonce, earlier) ∈ log.filterMap acceptedPair →
      earlier < count := by
    intro earlier hmem
    have := h.counted nonce entry pending earlier hmem
    omega
  refine ⟨?_, ?_, ?_, ?_, ?_, ?_, ?_⟩
  · intro other found hget
    rw [IndexMap.get?_insert] at hget
    split at hget
    · rename_i hother
      rw [hother]
      exact (h.issued nonce entry pending).append _
    · exact (h.issued other found hget).append _
  · rw [haccepted]
    intro other found hget earlier hmem
    rw [IndexMap.get?_insert] at hget
    rw [mem_append, mem_singleton] at hmem
    split at hget
    · rename_i hother
      cases hget
      subst hother
      rcases hmem with hmem | hmem
      · exact (hlast earlier hmem).le
      · cases hmem
        exact le_rfl
    · rename_i hother
      rcases hmem with hmem | hmem
      · exact h.counted other found hget earlier hmem
      · cases hmem
        exact absurd rfl hother
  · rw [hfailed]
    intro other hmem found hget
    rw [IndexMap.get?_insert] at hget
    split at hget
    · rename_i hother
      exact h.gone other hmem entry (hother ▸ pending)
    · exact h.gone other hmem found hget
  · rw [haccepted]
    intro other earlier hmem
    rw [mem_append, mem_singleton] at hmem
    rcases hmem with hmem | hmem
    · exact (h.acceptedIssued other earlier hmem).append _
    · cases hmem
      exact (h.issued nonce entry pending).append _
  · rw [hfailed]
    exact fun other hmem => (h.failedIssued other hmem).append _
  · rw [haccepted]
    refine nodup_append.mpr ⟨h.once, pairwise_singleton _ _, ?_⟩
    rintro ⟨other, earlier⟩ hmem pair hpair rfl
    cases mem_singleton.mp hpair
    exact absurd (hlast count hmem) (lt_irrefl count)
  · refine pairwise_settles_append h.settled ?_
    intro other hmem later heq
    cases heq
    exact h.gone nonce hmem entry pending

theorem Recorded.fail (pending : store.vectors.get? nonce = some (.sipDigest entry))
    (reason : String) :
  Recorded auth (log ++ [.failed nonce reason]) (store.forget nonce)
  := by
  have haccepted : (log ++ [failed nonce reason]).filterMap
      acceptedPair = log.filterMap acceptedPair :=
    filterMap_append.trans (append_nil _)
  have hfailed : (log ++ [failed nonce reason]).filterMap
      failedNonce = log.filterMap failedNonce ++ [nonce] :=
    filterMap_append
  refine ⟨?_, ?_, ?_, ?_, ?_, ?_, ?_⟩
  · exact fun other found hget => (h.issued other found (get?_forget hget).2).append _
  · rw [haccepted]
    exact fun other found hget => h.counted other found (get?_forget hget).2
  · rw [hfailed]
    intro other hmem found hget
    obtain ⟨hne, hget⟩ := get?_forget hget
    rcases mem_append.mp hmem with hmem | hmem
    · exact h.gone other hmem found hget
    · exact hne (mem_singleton.mp hmem)
  · rw [haccepted]
    exact fun other count hmem => (h.acceptedIssued other count hmem).append _
  · rw [hfailed]
    intro other hmem
    rcases mem_append.mp hmem with hmem | hmem
    · exact (h.failedIssued other hmem).append _
    · rw [mem_singleton.mp hmem]
      exact (h.issued nonce entry pending).append _
  · rw [haccepted]
    exact h.once
  · exact pairwise_settles_append h.settled fun _ _ _ => nofun

theorem Recorded.challenge {source : NonceSource}
    (fresh : ¬ Issued auth log (generateNonce auth source)) (now : ℕ)
    (challenge : SipDigestChallenge) (values : List Text) :
  Recorded auth (log ++ [.challenged source challenge values])
    (store.insertDigest now (generateNonce auth source) challenge)
  := by
  have haccepted : (log ++ [challenged source challenge values]).filterMap
      acceptedPair = log.filterMap acceptedPair :=
    filterMap_append.trans (append_nil _)
  have hfailed : (log ++ [challenged source challenge values]).filterMap
      failedNonce = log.filterMap failedNonce :=
    filterMap_append.trans (append_nil _)
  refine ⟨?_, ?_, ?_, ?_, ?_, ?_, ?_⟩
  · intro other found hget
    rcases get?_insertPending hget with ⟨hother, -⟩ | hget
    · exact ⟨source, by simp [nonceSource], hother.symm⟩
    · exact (h.issued other found hget).append _
  · rw [haccepted]
    intro other found hget count hmem
    rcases get?_insertPending hget with ⟨hother, -⟩ | hget
    · exact absurd (hother ▸ h.acceptedIssued other count hmem) fresh
    · exact h.counted other found hget count hmem
  · rw [hfailed]
    intro other hmem found hget
    rcases get?_insertPending hget with ⟨hother, -⟩ | hget
    · exact fresh (hother ▸ h.failedIssued other hmem)
    · exact h.gone other hmem found hget
  · rw [haccepted]
    exact fun other count hmem => (h.acceptedIssued other count hmem).append _
  · rw [hfailed]
    exact fun other hmem => (h.failedIssued other hmem).append _
  · rw [haccepted]
    exact h.once
  · exact pairwise_settles_append h.settled fun _ _ _ => nofun

variable (hstep : ChallengeStep auth now store next events)
  (hclash : Unclashing auth (log ++ events))
include hstep hclash

/-- A step keeps the store in line with the events. -/
theorem Recorded.step :
  Recorded auth (log ++ events) next
  := by
  cases hstep with
  | quiet kept silent => exact h.quiet kept silent
  | accept pending higher => exact h.accept pending higher _ _ _
  | fail pending => exact h.fail pending _
  | challenge =>
    refine h.challenge ?_ _ _ _
    rintro ⟨earlier, hmem, heq⟩
    exact hclash.not_clashes hmem (by simp [nonceSource])
      ((generateNonce_eq_iff auth _ _).mp heq)

theorem Recorded.kept {source : NonceSource} (hsource : source ∈ events.filterMap nonceSource)
    (hentry : store.vectors.get? nonce = some (.sipDigest entry)) (hlive : now < entry.validUntil) :
  next.vectors.get? nonce = some (.sipDigest entry)
  := by
  cases hstep with
  | quiet kept silent =>
    obtain ⟨event, hevent, heq⟩ := mem_filterMap.mp hsource
    rw [(silent event hevent).2.2] at heq
    cases heq
  | accept | fail => cases hsource
  | challenge =>
    refine get?_insertPending_of_isLive ?_ (by simpa [Pending.isLive] using hlive) hentry
    intro hsame
    obtain ⟨earlier, hmem, heq⟩ := h.issued nonce entry hentry
    exact hclash.not_clashes hmem (by simp [nonceSource])
      ((generateNonce_eq_iff auth _ _).mp (heq.trans hsame))

end

end

section

variable [StdText] [StdDigest] {auth : NonceConfig} {nonceLifetime : ℕ}

/-- So it is after a run in which no nonces clash. -/
theorem recorded_run {inputs : List DigestInput}
    (hclash : Unclashing auth ((challengeMachine auth nonceLifetime).outputs {} inputs)) :
  Recorded auth ((challengeMachine auth nonceLifetime).outputs {} inputs)
    ((challengeMachine auth nonceLifetime).run {} inputs)
  := by
  refine @Machine.logged _ _ _ (challengeMachine auth nonceLifetime)
    (fun log store => Unclashing auth log → Recorded auth log store) ?_ _ ?_ inputs hclash
  · intro log store input ih hclash
    exact (ih hclash.of_append).step (challengeStep_step store input) hclash
  intro _
  refine ⟨?_, ?_, ?_, ?_, ?_, ?_, ?_⟩
  · intro nonce entry hget
    simp at hget
  all_goals simp

/-- In a run in which no two challenges are made from clashing sources, no pair of nonce and count
is accepted twice, no nonce is accepted after an answer to it has failed, and a step that issues a
challenge leaves every challenge that is live then as it is. -/
theorem digest_answer_accepted_once (auth : NonceConfig) (nonceLifetime : ℕ)
    (inputs : List DigestInput)
    (hclash : Unclashing auth ((challengeMachine auth nonceLifetime).outputs {} inputs)) :
  let m := challengeMachine auth nonceLifetime
  ((m.outputs {} inputs).filterMap acceptedPair).Nodup
    ∧ (m.outputs {} inputs).Pairwise DigestEvent.Settles
    ∧ ∀ before input, before ++ [input] <+: inputs →
        (m.step (m.run {} before) input).2.filterMap nonceSource ≠ [] →
        ∀ nonce entry, (m.run {} before).vectors.get? nonce = some (.sipDigest entry) →
          input.now < entry.validUntil →
          (m.run {} (before ++ [input])).vectors.get? nonce = some (.sipDigest entry)
  := by
  have hrecorded := recorded_run hclash
  refine ⟨hrecorded.once, hrecorded.settled, ?_⟩
  rintro before input ⟨rest, rfl⟩ hissues nonce entry hentry hlive
  obtain ⟨source, hsource⟩ := exists_mem_of_ne_nil _ hissues
  rw [Machine.outputs, Machine.trace_append, flatMap_append] at hclash
  have hprefix := hclash.of_append
  rw [← Machine.outputs, Machine.outputs_append_singleton] at hprefix
  rw [Machine.run_append]
  exact (recorded_run hprefix.of_append).kept (challengeStep_step _ input) hprefix hsource hentry
    hlive

end

/-! ### Two challenges in one second -/

/-- Hash functions that take everything to one value. -/
@[reducible] def constantDigest : StdDigest where
  hashHex _ _ := "00".toList
  hmacSha256Hex _ _ := "11".toList

def secretAuth : NonceConfig :=
  { nonceSecret := some [1], nonceTtlSecs := 300 }

/-- A REGISTER of someone in a second, with the count of its answer, if it is one, and its
response. -/
def registerOf (identity : String) (second : ℕ) (answer : Option (String × String)) : DigestInput :=
  let nonce := @generateNonce constantDigest secretAuth ⟨7, 0⟩
  .register ⟨second * 10 ^ 9, second * 10 ^ 9, second * 10 ^ 9⟩ ⟨.ofNat second, 0⟩
    { method := "REGISTER".toList
      publicIdentity := identity.toList
      userName := identity.toList
      callId := "call".toList
      answer := answer.map fun (count, response) =>
        { username := identity.toList, realm := "ims".toList, nonce, uri := "sip:ims".toList,
          response := response.toList, algorithm := some "MD5".toList, qop := some "auth".toList,
          clientNonce := some "c".toList, nonceCount := some count.toList } }
    (.sipDigest { realm := "ims".toList, hashes := [(.md5, "00".toList)] })

def secretMachine : Machine AuthVectorStore DigestInput DigestEvent :=
  @challengeMachine StdText.ascii constantDigest secretAuth (600 * 10 ^ 9)

/-- In three different seconds: a challenge, its answer, and the same answer again, which is
challenged anew. -/
theorem replayed_is_challenged :
  let inputs := [registerOf "alice" 7 none, registerOf "alice" 8 (some ("00000001", "00")),
    registerOf "alice" 9 (some ("00000001", "00"))]
  (secretMachine.outputs {} inputs).length = 3
    ∧ ((secretMachine.outputs {} inputs).filterMap acceptedPair).Nodup
  := ⟨by decide +kernel,
    (@digest_answer_accepted_once StdText.ascii constantDigest secretAuth (600 * 10 ^ 9) _
      (by decide +kernel)).1⟩

/-- Two challenges in one second have one nonce.  The second one lets a pair of nonce and count be
accepted again, lets a nonce be accepted to which an answer has failed, and takes the place of the
live challenge of someone else. -/
theorem oneSecond_accepts_twice :
  let nonce := @generateNonce constantDigest secretAuth ⟨7, 0⟩
  let replayed := [registerOf "alice" 7 none, registerOf "alice" 7 (some ("00000001", "00")),
    registerOf "alice" 7 none, registerOf "alice" 7 (some ("00000001", "00"))]
  let failed := [registerOf "alice" 7 none, registerOf "alice" 7 (some ("00000001", "01")),
    registerOf "alice" 7 none, registerOf "alice" 7 (some ("00000001", "00"))]
  let owner (inputs : List DigestInput) :=
    ((secretMachine.run {} inputs).digest (7 * 10 ^ 9) nonce).map
      fun found => found.1.publicIdentity
  (secretMachine.outputs {} replayed).filterMap acceptedPair
      = [(nonce, 1), (nonce, 1)]
    ∧ (secretMachine.outputs {} failed).map
        (fun event => (event.failedNonce, event.acceptedPair.map Prod.fst))
      = [(none, none), (some nonce, none), (none, none), (none, some nonce)]
    ∧ owner [registerOf "alice" 7 none] = some "alice".toList
    ∧ owner [registerOf "alice" 7 none, registerOf "bob" 7 none] = some "bob".toList
  := by
  decide +kernel

end Siphon.Auth
