import Siphon.Sip.HeaderBlock
import Siphon.Sip.HeaderMap
import Siphon.Transaction.Manager

/-!
# Requests built for an INVITE

The CANCEL of an INVITE and the ACK of a non-2xx final response take over the request URI, the
dialog's fields, the number of the `CSeq` and the route.
-/

namespace Siphon

open List

/-- Parse all Via headers into typed values, topmost first. -/
def SipMessage.typedVias [StdText] (m : SipMessage) : Except ValueError (List Via) :=
  (((m.headers.getAll "Via".toList).getD []).mapM Via.parseMulti).map List.flatten

/-- The topmost hop: the first one on the first line. -/
def SipMessage.topVia [StdText] (m : SipMessage) : Option Via :=
  (m.headers.get "Via".toList).bind fun line => (Via.parseMulti line).toOption.bind List.head?

/-! ### Header fields -/

variable (h : SipHeaders)

theorem getAll_set (name value j : Text) :
  (h.set name value).getAll j
    = if canonicalKey j = canonicalKey name then some [value] else h.getAll j
  := h.getAll_step (.set name value) j

theorem getAll_foldl_remove {names : List Text} {j : Text}
    (hne : ∀ n ∈ names, canonicalKey j ≠ canonicalKey n) :
  (names.foldl SipHeaders.remove h).getAll j = h.getAll j
  := by
  induction names generalizing h with
  | nil => rfl
  | cons n names ih =>
  rw [foldl_cons, ih _ fun n hn => hne n (mem_cons_of_mem _ hn)]
  exact (h.getAll_step (.remove n) j).trans (if_neg (hne n mem_cons_self))

theorem getAll_foldl_add (name : Text) (values : List Text) (j : Text) :
  (values.foldl (fun h value => h.add name value) h).getAll j
    = if canonicalKey j = canonicalKey name ∧ values ≠ [] then some ((h.getAll j).getD [] ++ values)
      else h.getAll j
  := by
  induction values generalizing h with
  | nil => simp
  | cons value values ih =>
  rw [foldl_cons, ih, getAll_add]
  by_cases hj : canonicalKey j = canonicalKey name <;> cases values <;> simp [hj]

/-! ### The requests -/

namespace Transaction

theorem getAll_stripped (reasons : List Text) {name : Text}
    (hname : canonicalKey name ∈ cancelKeep) :
  (reasons.foldl (fun h reason => h.add "Reason".toList reason)
      (((h.headers.entries.map Prod.fst).filter fun n => !cancelKeep.contains n).foldl
        SipHeaders.remove h)).getAll name
    = h.getAll name
  := by
  have hreason : canonicalKey name ≠ canonicalKey "Reason".toList := by
    intro heq
    rw [heq] at hname
    revert hname
    decide
  rw [getAll_foldl_add, if_neg fun hc => hreason hc.1, getAll_foldl_remove]
  intro n hn heq
  obtain ⟨hmem, hnot⟩ := mem_filter.mp hn
  obtain ⟨e, he, rfl⟩ := mem_map.mp hmem
  rw [h.canonical e he, canonicalKey_canonicalKey] at heq
  rw [heq, ← h.canonical e he] at hname
  simp [hname] at hnot

theorem required_eq_ok {value : Option Text} {missing : String} {text : Text}
    (h : Ict.required value missing = .ok text) :
  value = some text
  := by
  cases value <;> cases h
  rfl

theorem head?_words_number (invite : SipMessage) (rest : Text) :
  (Slice.words Text.isWhitespace ((cseqNumber invite).getD "1".toList ++ ' ' :: rest)).head?
    = some ((cseqNumber invite).getD "1".toList)
  := by
  have hword : (cseqNumber invite).getD "1".toList ≠ [] ∧
      ∀ c ∈ (cseqNumber invite).getD "1".toList, Text.isWhitespace c = false := by
    cases hseq : cseqNumber invite with
    | none => exact ⟨by decide, fun c hc => mem_singleton.mp hc ▸ rfl⟩
    | some seq =>
    obtain ⟨c, -, hc⟩ := Option.bind_eq_some_iff.mp hseq
    obtain ⟨hmem, hne⟩ := mem_filter.mp (mem_of_head? hc)
    exact ⟨by simpa using hne, (Slice.mem_splitOnP hmem).1⟩
  rw [Slice.words_append_of_head? hword.1 hword.2 (by rintro c ⟨⟩; decide)]
  rfl

section

variable {invite built : SipMessage}

/-- The fields that are the same in both requests. -/
structure SameFields (invite built : SipMessage) : Prop where
  callId : built.headers.get "Call-ID".toList = invite.headers.get "Call-ID".toList
  sender : built.headers.get "From".toList = invite.headers.get "From".toList
  routes : (built.headers.getAll "Route".toList).getD []
    = (invite.headers.getAll "Route".toList).getD []

/-- What either request takes over from the INVITE. -/
structure TakenOver (invite built : SipMessage) : Prop extends SameFields invite built where
  via : ∀ line ∈ invite.headers.get "Via".toList, built.headers.getAll "Via".toList = some [line]
  start : ∃ line line', invite.startLine = .request line ∧ built.startLine = .request line' ∧
    line'.requestUri = line.requestUri
  cseq : ∃ method, built.headers.getAll "CSeq".toList
    = some [(cseqNumber invite).getD "1".toList ++ ' ' :: method]

theorem takenOver_buildCancel {reasons : List Text} (h : buildCancel invite reasons = some built) :
  TakenOver invite built
  := by
  unfold buildCancel at h
  split at h
  · cases h
  · rename_i line hline
    obtain ⟨seq, hseq, hbuilt⟩ := Option.map_eq_some_iff.mp h
    generalize hbase : invite.headers.set "CSeq".toList (seq ++ " CANCEL".toList) = base at hbuilt
    have hget {name : Text} (hname : canonicalKey name ∈ cancelKeep) :
        built.headers.getAll name = (((invite.headers.get "Via".toList).elim base
          (base.set "Via".toList)).set "Content-Length".toList "0".toList).getAll name := by
      subst hbuilt
      rw [SipHeaders.get]
      cases (invite.headers.getAll "Via".toList).bind List.head? <;>
        exact getAll_stripped _ reasons hname
    have hsame (name : Text) (hname : name ∈ ["Call-ID".toList, "From".toList, "Route".toList]) :
        built.headers.getAll name = invite.headers.getAll name := by
      simp only [mem_cons, not_mem_nil, or_false] at hname
      rcases hname with rfl | rfl | rfl <;> rw [hget (by decide), ← hbase] <;>
        cases invite.headers.get "Via".toList <;>
        simp +decide only [Option.elim, getAll_set, reduceIte]
    refine ⟨⟨?_, ?_, ?_⟩, ?_, ?_, ?_⟩
    · rw [SipHeaders.get, hsame _ (by decide), SipHeaders.get]
    · rw [SipHeaders.get, hsame _ (by decide), SipHeaders.get]
    · rw [hsame _ (by decide)]
    · intro top htop
      rw [hget (by decide), htop]
      simp +decide only [Option.elim, getAll_set, reduceIte]
    · exact ⟨line, { line with method := .cancel }, hline, hbuilt ▸ rfl, rfl⟩
    · use "CANCEL".toList
      rw [hget (by decide), ← hbase, hseq]
      cases invite.headers.get "Via".toList <;>
        simp +decide only [Option.elim, getAll_set, reduceIte] <;> rfl

variable [StdText]

/-- The request is the CANCEL of the INVITE, or the ACK of a non-2xx final response to it. -/
inductive BuiltFor (invite : SipMessage) : SipMessage → Prop
  | cancel {reasons : List Text} {built : SipMessage}
      (h : buildCancel invite reasons = some built) : BuiltFor invite built
  | ack {t : Ict} {response built : SipMessage}
      (hsent : parseSipMessageBytes t.requestBytes = .ok invite)
      (h : t.buildAckForNon2xx response = .ok built) : BuiltFor invite built

theorem takenOver_buildAckForNon2xx {t : Ict} {response : SipMessage}
    (hsent : parseSipMessageBytes t.requestBytes = .ok invite)
    (h : t.buildAckForNon2xx response = .ok built) :
  TakenOver invite built
  := by
  unfold Ict.buildAckForNon2xx at h
  rw [hsent] at h
  obtain ⟨_, ⟨⟩, h⟩ := Nom.bind_eq_ok.mp h
  obtain ⟨line, hline⟩ : ∃ line, invite.startLine = .request line := by
    cases hline : invite.startLine with
    | request line => exact ⟨line, rfl⟩
    | response line => simp [hline, bind, Except.bind] at h
  simp only [hline] at h
  obtain ⟨_, ⟨⟩, h⟩ := Nom.bind_eq_ok.mp h
  obtain ⟨via, hvia, h⟩ := Nom.bind_eq_ok.mp h
  obtain ⟨sender, hsender, h⟩ := Nom.bind_eq_ok.mp h
  obtain ⟨to', -, h⟩ := Nom.bind_eq_ok.mp h
  obtain ⟨callId, hcallId, ⟨⟩⟩ := Nom.bind_eq_ok.mp h
  refine ⟨⟨?_, ?_, ?_⟩, ?_, ⟨line, _, hline, rfl, rfl⟩, "ACK".toList, ?_⟩
  · rw [required_eq_ok hcallId, SipHeaders.get]
    simp +decide only [getAll_set, getAll_add, getAll_foldl_add, reduceIte, false_and]
    rfl
  · rw [required_eq_ok hsender, SipHeaders.get]
    simp +decide only [getAll_set, getAll_add, getAll_foldl_add, reduceIte, false_and]
    rfl
  · simp +decide only [getAll_set, getAll_add, getAll_foldl_add, reduceIte, true_and]
    cases (invite.headers.getAll "Route".toList).getD [] <;> rfl
  · rw [required_eq_ok hvia]
    rintro line ⟨⟩
    simp +decide only [getAll_set, getAll_add, getAll_foldl_add, reduceIte, false_and]
    rfl
  · simp +decide only [getAll_set, getAll_add, getAll_foldl_add, reduceIte, false_and]
    rfl

/-- The request has the topmost hop of the INVITE alone, and the fields that tie it to the
INVITE's transaction. -/
structure Matches (invite built : SipMessage) : Prop extends SameFields invite built where
  via : ∃ top, invite.topVia = some top ∧ built.typedVias = .ok [top]
  uri : built.requestUri = invite.requestUri
  cseq : cseqNumber built = cseqNumber invite
  key : built.method = some .cancel → TransactionManager.keyFromMessage built
    = (TransactionManager.keyFromMessage invite).map fun key => { key with method := .cancel }

theorem keyFromMessage_request {m : SipMessage} {line : RequestLine} {text : Text} {top : Via}
    (hstart : m.startLine = .request line) (htext : m.headers.get "Via".toList = some text)
    (hone : Via.parseMulti text = .ok [top]) :
  TransactionManager.keyFromMessage m = match top.branch with
    | some branch =>
      .ok (.new branch line.method (TransactionKey.formatSentBy top.host top.port))
    | none => .error (.message "topmost Via has no branch parameter")
  := by
  rw [TransactionManager.keyFromMessage, htext, Option.some_or]
  dsimp only
  rw [hone, TransactionManager.messageMethod, hstart]
  cases hbranch : top.branch <;> simp [Except.mapError, bind, Except.bind, hbranch]
  all_goals rfl

theorem BuiltFor.takenOver (h : BuiltFor invite built) :
  TakenOver invite built
  := by
  cases h with
  | cancel h => apply takenOver_buildCancel h
  | ack hsent h => apply takenOver_buildAckForNon2xx hsent h

theorem matches_iff_of_builtFor (h : BuiltFor invite built) :
  Matches invite built ↔
    (∃ line top, invite.headers.get "Via".toList = some line ∧ Via.parseMulti line = .ok [top]) ∧
      (cseqNumber invite).isSome
  := by
  have htaken := h.takenOver
  obtain ⟨method, hcseq⟩ := htaken.cseq
  obtain ⟨iline, bline, histart, hbstart, huri⟩ := htaken.start
  have hnumber : cseqNumber built = some ((cseqNumber invite).getD "1".toList) := by
    rw [cseqNumber, SipHeaders.get, hcseq]
    apply head?_words_number
  have hvias {line : Text} (hline : invite.headers.get "Via".toList = some line) :
      built.typedVias = Via.parseMulti line := by
    rw [SipMessage.typedVias, htaken.via line hline]
    cases hparse : Via.parseMulti line <;> simp [hparse, Except.map]
  constructor
  · intro hm
    obtain ⟨top, htop, hone⟩ := hm.via
    obtain ⟨line, hline, -⟩ := Option.bind_eq_some_iff.mp htop
    rw [hvias hline] at hone
    rw [← hm.cseq, hnumber]
    exact ⟨⟨line, top, hline, hone⟩, rfl⟩
  · rintro ⟨⟨line, top, hline, hone⟩, hseq⟩
    refine ⟨htaken.toSameFields, ⟨top, ?_, (hvias hline).trans hone⟩, ?_, ?_, ?_⟩
    · rw [SipMessage.topVia, hline, Option.bind_some, hone]
      rfl
    · simp [SipMessage.requestUri, histart, hbstart, huri]
    · obtain ⟨seq, hseq⟩ := Option.isSome_iff_exists.mp hseq
      rw [hnumber, hseq]
      rfl
    · intro hcancel
      have hget : built.headers.get "Via".toList = some line := by
        rw [SipHeaders.get, htaken.via line hline]
        rfl
      have hmethod : bline.method = .cancel := by simpa [SipMessage.method, hbstart] using hcancel
      rw [keyFromMessage_request hbstart hget hone, keyFromMessage_request histart hline hone,
        hmethod]
      cases top.branch <;> rfl

end

def inviteVia (line : String) : SipMessage :=
  ⟨.request ⟨.invite, ⟨.sip, none, "b.example".toList, none, [], none⟩, .sip20⟩,
    (SipHeaders.new.add "Via".toList line.toList).add "CSeq".toList "1 INVITE".toList, []⟩

theorem oneHop_cancel_matches :
  ∃ built, buildCancel (inviteVia "SIP/2.0/UDP a;branch=1") [] = some built
    ∧ @Matches StdText.ascii (inviteVia "SIP/2.0/UDP a;branch=1") built
  := by
  let _ := StdText.ascii
  refine ⟨_, rfl, (matches_iff_of_builtFor (.cancel rfl)).mpr
    ⟨⟨_, ⟨"UDP".toList, "a".toList, none, some "1".toList, none, none, []⟩, rfl, ?_⟩, ?_⟩⟩
  all_goals decide +kernel

theorem twoHops_cancel_not_matches :
  ∃ built, buildCancel (inviteVia "SIP/2.0/UDP a;branch=1, SIP/2.0/UDP b;branch=2") [] = some built
    ∧ ¬ @Matches StdText.ascii (inviteVia "SIP/2.0/UDP a;branch=1, SIP/2.0/UDP b;branch=2") built
  := by
  let _ := StdText.ascii
  refine ⟨_, rfl, fun hm => ?_⟩
  obtain ⟨top, -, hone⟩ := hm.via
  have hlen : Except.map List.length _ = .ok 1 := congrArg (Except.map List.length) hone
  exact absurd hlen (by decide +kernel)

end Transaction

end Siphon
