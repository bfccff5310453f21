import Siphon.Sip.LineSafety
import Siphon.Sip.Replaces

/-!
# What becomes of a Refer-To

The `Replaces` text written for a `Refer-To` is always read back as the same dialog.
-/

namespace Siphon

open List Slice ReferTo

/-! ### Escaping and decoding again -/

/-- The characters that are escaped when a `Replaces` value is embedded. -/
def isDelimiter (c : Char) : Bool :=
  c == ';' || c == '='

def escape (c : Char) : Text :=
  if c = ';' then "%3B".toList else if c = '=' then "%3D".toList else [c]

theorem urlEncode_cons (c : Char) (raw : Text) :
  urlEncode (c :: raw) = escape c ++ urlEncode raw
  := flatMap_cons

theorem urlEncode_append (a b : Text) :
  urlEncode (a ++ b) = urlEncode a ++ urlEncode b
  := flatMap_append

variable {c : Char}

theorem escape_of_not_isDelimiter (hc : isDelimiter c = false) :
  escape c = [c]
  := by
  simp only [isDelimiter, Bool.or_eq_false_iff, beq_eq_false_iff_ne] at hc
  rw [escape, if_neg hc.1, if_neg hc.2]

theorem exists_escape (hc : isDelimiter c = true) :
  ∃ h, escape c = ['%', '3', h] ∧ h ≠ '%' ∧ isDelimiter h = false ∧ hexOctet '3' h = some c.toNat
  := by
  simp only [isDelimiter, Bool.or_eq_true, beq_iff_eq] at hc
  rcases hc with rfl | rfl
  · exact ⟨'B', rfl, by decide, by decide, by decide⟩
  · exact ⟨'D', rfl, by decide, by decide, by decide⟩

theorem urlDecode_cons (hc : c ≠ '%') (t : Text) :
  urlDecode (c :: t) = c :: urlDecode t
  := by
  rw [urlDecode]
  · exact fun _ _ _ h => absurd h hc
  · exact fun _ h => absurd h hc

variable {a b : Char}

theorem urlDecode_octet {octet : ℕ} (h : hexOctet a b = some octet) (t : Text) :
  urlDecode ('%' :: a :: b :: t) = Char.ofNat octet :: urlDecode t
  := by
  rw [urlDecode, h]

theorem urlDecode_none (h : hexOctet a b = none) (t : Text) :
  urlDecode ('%' :: a :: b :: t) = '%' :: a :: b :: urlDecode t
  := by
  rw [urlDecode, h]

theorem hexOctet_percent (a b : Char) :
  hexOctet '%' b = none ∧ hexOctet a '%' = none
  := by
  have hdigit : hexDigit '%' = none := by decide
  constructor
  · rfl
  rw [hexOctet, hdigit]
  split
  · rfl
  · cases hexDigit a <;> rfl

/-- Whether no `%` of a text is taken for, or separated by, an escape after embedding. -/
def escapesSurvive : Text → Bool
  | '%' :: a :: b :: rest =>
    !isDelimiter a && !isDelimiter b && (hexOctet a b).isNone && escapesSurvive rest
  | ['%', a] => !isDelimiter a
  | _ :: rest => escapesSurvive rest
  | [] => true

/-- How an embedded text is decoded: a delimiter after a `%` keeps its escape, and a `%` with two
hexadecimal digits is decoded once more. -/
inductive Reread : Text → Text → Prop
  | nil : Reread [] []
  | kept (c : Char) {raw d : Text} : Reread raw d → Reread (c :: raw) (c :: d)
  | escaped {c h : Char} {raw d : Text} :
    isDelimiter c = true → isDelimiter h = false → Reread raw d →
      Reread (c :: raw) ('%' :: '3' :: h :: d)
  | decoded {a b : Char} (y : Char) {raw d : Text} :
    isDelimiter a = false → isDelimiter b = false → Reread raw d →
      Reread ('%' :: a :: b :: raw) (y :: d)

def embedded (raw : Text) : Text :=
  urlDecode (urlEncode raw)

theorem embedded_cons (hc : c ≠ '%') (raw : Text) :
  embedded (c :: raw) = c :: embedded raw
  := by
  rw [embedded, urlEncode_cons]
  cases hdel : isDelimiter c with
  | false =>
    rw [escape_of_not_isDelimiter hdel, singleton_append, urlDecode_cons hc]
    rfl
  | true =>
    obtain ⟨h, hesc, -, -, hoctet⟩ := exists_escape hdel
    rw [hesc, cons_append, cons_append, singleton_append, urlDecode_octet hoctet, Char.ofNat_toNat]
    rfl

theorem embedded_percent_delimiter (ha : isDelimiter a = true) (raw : Text) :
  ∃ h, isDelimiter h = false ∧ embedded ('%' :: a :: raw) = '%' :: '%' :: '3' :: h :: embedded raw
  := by
  obtain ⟨h, hesc, hne, hdel, -⟩ := exists_escape ha
  use h, hdel
  rw [embedded, urlEncode_cons, urlEncode_cons, hesc]
  change urlDecode ('%' :: '%' :: '3' :: h :: urlEncode raw) = _
  rw [urlDecode_none (hexOctet_percent '3' '3').1, urlDecode_cons hne]
  rfl

theorem embedded_percent_char_delimiter (ha : isDelimiter a = false) (hb : isDelimiter b = true)
    (raw : Text) :
  ∃ h, isDelimiter h = false
    ∧ embedded ('%' :: a :: b :: raw) = '%' :: a :: '%' :: '3' :: h :: embedded raw
  := by
  obtain ⟨h, hesc, hne, hdel, -⟩ := exists_escape hb
  use h, hdel
  rw [embedded, urlEncode_cons, urlEncode_cons, urlEncode_cons, escape_of_not_isDelimiter ha, hesc]
  change urlDecode ('%' :: a :: '%' :: '3' :: h :: urlEncode raw) = _
  rw [urlDecode_none (hexOctet_percent a '3').2, urlDecode_cons (by decide), urlDecode_cons hne]
  rfl

theorem embedded_percent (ha : isDelimiter a = false) (hb : isDelimiter b = false) (raw : Text) :
  embedded ('%' :: a :: b :: raw) = match hexOctet a b with
    | some octet => Char.ofNat octet :: embedded raw
    | none => '%' :: a :: b :: embedded raw
  := by
  rw [embedded, urlEncode_cons, urlEncode_cons, urlEncode_cons, escape_of_not_isDelimiter ha,
    escape_of_not_isDelimiter hb]
  rfl

theorem embedded_percent_char (ha : isDelimiter a = false) :
  embedded ['%', a] = ['%', a]
  := by
  rw [embedded, urlEncode_cons, urlEncode_cons, escape_of_not_isDelimiter ha]
  rfl

theorem reread_embedded (raw : Text) :
  Reread raw (embedded raw)
  := by
  match raw with
  | [] => exact Reread.nil
  | c :: rest =>
    by_cases hc : c = '%'
    · subst hc
      match rest with
      | [] => exact Reread.kept '%' Reread.nil
      | a :: rest =>
        cases ha : isDelimiter a with
        | true =>
          obtain ⟨h, hdel, he⟩ := embedded_percent_delimiter ha rest
          rw [he]
          exact (Reread.escaped ha hdel (reread_embedded rest)).kept '%'
        | false =>
          match rest with
          | [] =>
            rw [embedded_percent_char ha]
            exact (Reread.nil.kept a).kept '%'
          | b :: rest =>
            cases hb : isDelimiter b with
            | true =>
              obtain ⟨h, hdel, he⟩ := embedded_percent_char_delimiter ha hb rest
              rw [he]
              exact ((Reread.escaped hb hdel (reread_embedded rest)).kept a).kept '%'
            | false =>
              rw [embedded_percent ha hb]
              split
              · exact (reread_embedded rest).decoded _ ha hb
              · exact (((reread_embedded rest).kept b).kept a).kept '%'
    · rw [embedded_cons hc]
      exact (reread_embedded rest).kept c
termination_by raw.length

/-! ### What a change of the text does -/

/-- The first characters in which two texts differ are a delimiter and a percent sign. -/
def DifferAtDelimiter (raw d : Text) : Prop :=
  ∃ pre x y u v, raw = pre ++ x :: u ∧ d = pre ++ y :: v
    ∧ ((x = '%' ∧ isDelimiter y = true) ∨ (isDelimiter x = true ∧ y = '%'))

variable {raw : Text}

/-- A delimiter that keeps its escape makes the text longer by two characters and loses a
delimiter; what is decoded makes it shorter by two characters and gains a delimiter at most. -/
theorem Reread.counts {d : Text} (h : Reread raw d) :
  ∃ longer shorter, d.length + 2 * shorter = raw.length + 2 * longer
    ∧ d.countP isDelimiter + longer ≤ raw.countP isDelimiter + shorter
    ∧ (d.countP isDelimiter + longer = raw.countP isDelimiter + shorter →
      raw = d ∨ DifferAtDelimiter raw d)
  := by
  induction h with
  | nil => exact ⟨0, 0, rfl, le_rfl, fun _ => .inl rfl⟩
  | @kept c raw d _ ih =>
    obtain ⟨longer, shorter, hlen, hcount, heq⟩ := ih
    refine ⟨longer, shorter, ?_, ?_, ?_⟩
    · simp only [length_cons]
      omega
    · simp only [countP_cons]
      omega
    · intro h
      simp only [countP_cons] at h
      rcases heq (by omega) with rfl | ⟨pre, x, y, u, v, rfl, rfl, hxy⟩
      · exact .inl rfl
      · exact .inr ⟨c :: pre, x, y, u, v, rfl, rfl, hxy⟩
  | @escaped c k raw d hc hk _ ih =>
    obtain ⟨longer, shorter, hlen, hcount, -⟩ := ih
    refine ⟨longer + 1, shorter, ?_, ?_, fun _ => ?_⟩
    · simp only [length_cons]
      omega
    · have hpercent : isDelimiter '%' = false := by decide
      have hthree : isDelimiter '3' = false := by decide
      simp only [countP_cons, hc, hk, hpercent, hthree]
      simp
      omega
    · exact .inr ⟨[], c, '%', raw, '3' :: k :: d, rfl, rfl, .inr ⟨hc, rfl⟩⟩
  | @decoded a b y raw d ha hb _ ih =>
    obtain ⟨longer, shorter, hlen, hcount, -⟩ := ih
    have hpercent : isDelimiter '%' = false := by decide
    refine ⟨longer, shorter + 1, ?_, ?_, fun h => ?_⟩
    · simp only [length_cons]
      omega
    · simp only [countP_cons, ha, hb, hpercent]
      split <;> simp <;> omega
    · have hy : isDelimiter y = true := by
        by_contra hy
        simp only [countP_cons, ha, hb, hpercent, hy] at h
        simp at h
        omega
      exact .inr ⟨[], '%', y, a :: b :: raw, d, rfl, rfl, .inl ⟨rfl, hy⟩⟩

theorem embedded_ne_cons_cons (ha : isDelimiter a = false) (hb : isDelimiter b = false)
    (raw : Text) :
  embedded raw ≠ a :: b :: raw
  := by
  intro h
  obtain ⟨longer, shorter, hlen, hcount, -⟩ := (reread_embedded raw).counts
  rw [h] at hlen hcount
  simp only [length_cons, countP_cons, ha, hb] at hlen hcount
  omega

/-- The texts that are the same after embedding and decoding. -/
theorem embedded_eq_self_iff (raw : Text) :
  embedded raw = raw ↔ escapesSurvive raw = true
  := by
  induction raw using escapesSurvive.induct with
  | case1 a b rest ih =>
    rw [escapesSurvive]
    cases ha : isDelimiter a with
    | true =>
      obtain ⟨h, -, he⟩ := embedded_percent_delimiter ha (b :: rest)
      rw [he]
      have : '%' ≠ a := by
        rintro rfl
        simp [isDelimiter] at ha
      simp [this]
    | false =>
      cases hb : isDelimiter b with
      | true =>
        obtain ⟨h, -, he⟩ := embedded_percent_char_delimiter ha hb rest
        rw [he]
        have : '%' ≠ b := by
          rintro rfl
          simp [isDelimiter] at hb
        simp [this]
      | false =>
        rw [embedded_percent ha hb]
        cases hoctet : hexOctet a b with
        | some octet => simp [embedded_ne_cons_cons ha hb]
        | none => simpa using ih
  | case2 a =>
    rw [escapesSurvive]
    cases ha : isDelimiter a with
    | true =>
      obtain ⟨h, -, he⟩ := embedded_percent_delimiter ha []
      rw [he]
      simp
    | false => simp [embedded_percent_char ha]
  | case3 c rest hthree htwo ih =>
    rw [escapesSurvive]
    · by_cases hc : c = '%'
      · subst hc
        match rest with
        | [] => decide
        | [a] => exact absurd rfl (htwo a rfl)
        | a :: b :: rest => exact absurd rfl (hthree a b rest rfl)
      · rw [embedded_cons hc, cons_inj_right]
        exact ih
    · exact hthree
    · exact htwo
  | case4 => decide

theorem Reread.eq_of_le {d full : Text} (h : Reread raw d) (hpre : raw <+: full)
    (hlen : full.length ≤ d.length) (hcount : full.countP isDelimiter ≤ d.countP isDelimiter) :
  raw = full ∧ d.length = full.length ∧ (raw = d ∨ DifferAtDelimiter raw d)
  := by
  obtain ⟨longer, shorter, hlen', hcount', heq⟩ := h.counts
  have hle := hpre.sublist.countP_le (p := isDelimiter)
  have hlen'' := hpre.length_le
  have hfull : raw = full := hpre.eq_of_length (by omega)
  subst hfull
  exact ⟨rfl, by omega, heq (by omega)⟩

/-! ### Reading an embedded Replaces value -/

theorem first_difference_unique {pre pre' u u' v v' : Text} {x x' y y' : Char}
    (hraw : pre ++ x :: u = pre' ++ x' :: u') (hd : pre ++ y :: v = pre' ++ y' :: v') (hxy : x ≠ y)
    (hxy' : x' ≠ y') :
  x = x'
  := by
  induction pre generalizing pre' with
  | nil =>
    cases pre' with
    | nil => exact (List.cons.inj hraw).1
    | cons c pre' =>
    exact absurd ((List.cons.inj hraw).1.trans (List.cons.inj hd).1.symm) hxy
  | cons c pre ih =>
    cases pre' with
    | nil => exact absurd ((List.cons.inj hraw).1.symm.trans (List.cons.inj hd).1) hxy'
    | cons c' pre' => exact ih (List.cons.inj hraw).2 (List.cons.inj hd).2

theorem flatMap_eq_or_differ {ps qs : List Text} (hperm : qs.Perm ps)
    (hhead : ∀ p ∈ ps, ∃ c t, p = c :: t ∧ c ≠ '%' ∧ isDelimiter c = false)
    (hinj : ∀ p ∈ ps, ∀ q ∈ ps, p.head? = q.head? → p = q) :
  qs = ps ∨ ∃ pre x y u v, (ps.flatMap fun p => ';' :: p) = pre ++ x :: u
    ∧ (qs.flatMap fun p => ';' :: p) = pre ++ y :: v ∧ x ≠ y ∧ x ≠ '%' ∧ isDelimiter x = false
  := by
  induction ps generalizing qs with
  | nil => exact .inl (perm_nil.mp hperm)
  | cons p ps ih =>
  match qs with
  | [] => exact absurd hperm.symm.eq_nil (by simp)
  | q :: qs =>
    by_cases hpq : q = p
    · subst hpq
      rcases ih ((perm_cons q).mp hperm) (fun p hp => hhead p (mem_cons_of_mem _ hp))
        (fun p hp r hr => hinj p (mem_cons_of_mem _ hp) r (mem_cons_of_mem _ hr))
        with rfl | ⟨pre, x, y, u, v, hp, hq, h⟩
      · exact .inl rfl
      · refine .inr ⟨';' :: q ++ pre, x, y, u, v, ?_, ?_, h⟩
        · rw [flatMap_cons, hp, append_assoc]
        · rw [flatMap_cons, hq, append_assoc]
    · have hq : q ∈ p :: ps := hperm.subset mem_cons_self
      obtain ⟨x, u, rfl, hx⟩ := hhead p mem_cons_self
      obtain ⟨y, v, rfl, -⟩ := hhead q hq
      refine .inr ⟨[';'], x, y, _, _, rfl, rfl, ?_, hx⟩
      rintro rfl
      exact hpq (hinj _ hq _ mem_cons_self rfl)

theorem head_params (r : Replaces) :
  ∀ p ∈ r.params, ∃ c t, p = c :: t ∧ c ≠ '%' ∧ isDelimiter c = false
  := by
  intro p hp
  rw [Replaces.params, mem_append, mem_pair] at hp
  rcases hp with (rfl | rfl) | hp
  · exact ⟨'f', _, rfl, by decide, by decide⟩
  · exact ⟨'t', _, rfl, by decide, by decide⟩
  · split at hp
    · rw [mem_singleton.mp hp]
      exact ⟨'e', _, rfl, by decide, by decide⟩
    · cases hp

theorem head_params_inj (r : Replaces) :
  ∀ p ∈ r.params, ∀ q ∈ r.params, p.head? = q.head? → p = q
  := by
  rw [Replaces.params]
  split <;> simp

variable {r : Replaces}

theorem parseReplacesValue_embedded_iff (hr : IsReplaces r) (hpre : raw <+: r.display) :
  parseReplacesValue (embedded raw) = .ok r
    ↔ raw = r.display ∧ escapesSurvive r.display = true
  := by
  constructor
  · intro h
    obtain ⟨ps, hperm, hsub⟩ := exists_perm_params h
    have htext : (r.callId ++ ps.flatMap fun p => ';' :: p).Perm r.display := by
      rw [Replaces.display_eq]
      exact (hperm.flatMap_right fun p => ';' :: p).append_left r.callId
    obtain ⟨hraw, hlen, heq⟩ := (reread_embedded raw).eq_of_le hpre
      (htext.length_eq.symm.trans_le hsub.length_le)
      ((htext.countP_eq isDelimiter).symm.trans_le hsub.countP_le)
    have hd : (r.callId ++ ps.flatMap fun p => ';' :: p) = embedded raw :=
      hsub.eq_of_length (htext.length_eq.trans hlen.symm)
    subst hraw
    refine ⟨rfl, (embedded_eq_self_iff _).mp ?_⟩
    rcases heq with heq | ⟨pre, x, y, u, v, hraw, hemb, hxy⟩
    · exact heq.symm
    rcases flatMap_eq_or_differ hperm (head_params r) (head_params_inj r) with
      rfl | ⟨pre', x', y', u', v', hps, hqs, hne, hpercent, hdel⟩
    · rw [← hd, Replaces.display_eq]
    -- a text in another order would differ first in a letter
    have hne' : x ≠ y := by
      rcases hxy with ⟨rfl, hy⟩ | ⟨hx, rfl⟩
      · rintro rfl
        exact absurd hy (by decide)
      · rintro rfl
        exact absurd hx (by decide)
    rw [Replaces.display_eq, hps, ← append_assoc] at hraw
    rw [← hd, hqs, ← append_assoc] at hemb
    have hx := first_difference_unique hraw hemb hne hne'
    subst hx
    rcases hxy with ⟨hx, -⟩ | ⟨hx, -⟩
    · exact absurd hx hpercent
    · rw [hx] at hdel
      cases hdel
  · rintro ⟨rfl, hsurvive⟩
    rw [(embedded_eq_self_iff _).mpr hsurvive]
    exact parseReplacesValue_display hr

/-! ### Reading a printed Refer-To -/

variable {refer : ReferTo} {input : Text}

theorem parseReferTo_eq_ok :
  parseReferTo input = .ok refer ↔ ∃ uri, referUri (Text.trim input) = .ok uri
    ∧ ((∃ query, uri = refer.uri ++ '?' :: query ∧ '?' ∉ refer.uri
        ∧ (query.splitOn '&').foldlM readReplaces none = .ok refer.replaces)
      ∨ ('?' ∉ uri ∧ refer = ⟨uri, none⟩))
  := by
  rw [parseReferTo]
  cases referUri (Text.trim input) with
  | error e => simp [bind, Except.bind]
  | ok uri =>
  simp only [bind, Except.bind, Except.ok.injEq, exists_eq_left', pure, Except.pure]
  cases hsplit : splitOnce '?' uri with
  | none =>
    have hmem : '?' ∉ uri := by
      intro hmem
      obtain ⟨a, b, hab, ha⟩ := eq_append_cons_of_mem hmem
      rw [hab, splitOnce_append ha] at hsplit
      cases hsplit
    simp only [Except.ok.injEq, hmem, not_false_eq_true, true_and]
    constructor
    · exact fun h => .inr h.symm
    · rintro (⟨query, rfl, -⟩ | h)
      · simp at hmem
      · exact h.symm
  | some pair =>
    obtain ⟨base, query⟩ := pair
    obtain ⟨rfl, hbase⟩ := splitOnce_eq_some_iff.mp hsplit
    dsimp only
    constructor
    · intro h
      split at h
      · cases h
      · rename_i replaces hreplaces
        cases h
        exact .inl ⟨query, rfl, hbase, hreplaces⟩
    · rintro (⟨query', heq, hmem, hfold⟩ | ⟨hmem, -⟩)
      · obtain ⟨rfl, rfl⟩ := Lines.append_cons_inj hbase hmem heq
        rw [hfold]
      · simp at hmem

theorem referUri_bracket {inside : Text} (h : '>' ∉ inside) (rest : Text) :
  referUri ('<' :: inside ++ '>' :: rest) = .ok inside
  := by
  have hmem : '>' ∉ '<' :: inside := by simp [h]
  have hhead : ('<' :: inside ++ '>' :: rest).head? = some '<' := rfl
  rw [referUri, if_pos hhead, splitOnce_append hmem]
  rfl

theorem trim_bracket (inside : Text) :
  Text.trim ('<' :: inside ++ ['>']) = '<' :: inside ++ ['>']
  := by
  apply trimMatches_eq_self
  · intro c hc
    cases hc
    decide
  · intro c hc
    rw [List.getLast?_append_of_ne_nil _ (by simp)] at hc
    cases hc
    decide

theorem not_mem_of_parseReferTo_bracket {inside : Text}
    (h : parseReferTo ('<' :: inside ++ ['>']) = .ok refer) :
  '>' ∉ refer.uri
  := by
  obtain ⟨uri, huri, hrefer⟩ := parseReferTo_eq_ok.mp h
  rw [trim_bracket] at huri
  have hmem : '>' ∉ uri := by
    obtain ⟨a, b, hab, ha⟩ := eq_append_cons_of_mem
      (show '>' ∈ inside ++ ['>'] by simp)
    rw [cons_append, hab, ← cons_append, referUri_bracket ha] at huri
    cases huri
    exact ha
  rcases hrefer with ⟨query, rfl, -⟩ | ⟨-, rfl⟩
  · exact fun h => hmem (mem_append_left _ h)
  · exact hmem

theorem not_mem_urlEncode (hc : c ∉ ['%', '3', 'B', 'D']) (h : isDelimiter c = true ∨ c ∉ raw) :
  c ∉ urlEncode raw
  := by
  intro hmem
  obtain ⟨x, hx, hcx⟩ := mem_flatMap.mp hmem
  change c ∈ escape x at hcx
  simp only [escape] at hcx
  split at hcx
  · simp at hcx hc
    tauto
  split at hcx
  · simp at hcx hc
    tauto
  · rename_i h1 h2
    obtain rfl := mem_singleton.mp hcx
    simp [isDelimiter, h1, h2, hx] at h

theorem urlEncode_flatMap (ws : List Text) :
  urlEncode (ws.flatMap fun w => '&' :: w) = (ws.map urlEncode).flatMap fun w => '&' :: w
  := by
  induction ws with
  | nil => rfl
  | cons w ws ih =>
  rw [flatMap_cons, urlEncode_append, ih, urlEncode_cons, map_cons, flatMap_cons]
  rfl

theorem readReplaces_of_not_mem {t : Text} (h : '=' ∉ t) (replaces : Option Replaces) :
  readReplaces replaces t = .ok replaces
  := by
  have hnone (lead : Text) (hlead : '=' ∈ lead) : t.dropPrefix? lead = none := by
    cases hdrop : t.dropPrefix? lead with
    | none => rfl
    | some v =>
    rw [eq_append_of_dropPrefix? hdrop] at h
    exact absurd (mem_append_left v hlead) h
  rw [readReplaces, hnone _ (by decide), hnone _ (by decide)]
  rfl

theorem foldlM_readReplaces_of_not_mem {ts : List Text} (h : ∀ t ∈ ts, '=' ∉ t)
    (replaces : Option Replaces) :
  ts.foldlM readReplaces replaces = .ok replaces
  := by
  induction ts with
  | nil => rfl
  | cons t ts ih =>
  rw [foldlM_cons, readReplaces_of_not_mem (h t mem_cons_self)]
  exact ih fun t ht => h t (mem_cons_of_mem _ ht)

theorem foldlM_readReplaces_embedded {first : Text} {more : List Text}
    (hsplit : raw.splitOn '&' = first :: more) :
  (("Replaces=".toList ++ urlEncode raw).splitOn '&').foldlM readReplaces none
    = (parseReplacesValue (embedded first)).map some
  := by
  have hmem : ∀ w ∈ first :: more, '&' ∉ w := by
    rw [← hsplit]
    exact fun w hw => (mem_splitOn hw).1
  have hfirst : '&' ∉ "Replaces=".toList ++ urlEncode first := by
    rw [mem_append, not_or]
    exact ⟨by decide, not_mem_urlEncode (by decide) (.inr (hmem first mem_cons_self))⟩
  rw [eq_append_flatMap_of_splitOn hsplit, urlEncode_append, urlEncode_flatMap,
    ← append_assoc, splitOn_append_flatMap hfirst, foldlM_cons, readReplaces,
    dropPrefix?_append]
  · change ((parseReplacesValue (embedded first)).map some).bind _ = _
    cases parseReplacesValue (embedded first) with
    | error e => rfl
    | ok r =>
    apply foldlM_readReplaces_of_not_mem
    intro w hw
    obtain ⟨v, -, rfl⟩ := mem_map.mp hw
    exact not_mem_urlEncode (by decide) (.inl (by decide))
  · intro w hw
    obtain ⟨v, hv, rfl⟩ := mem_map.mp hw
    exact not_mem_urlEncode (by decide) (.inr (hmem v (mem_cons_of_mem _ hv)))

theorem exists_cut (raw : Text) :
  ∃ cut rest, cut <+: raw ∧ '>' ∉ cut ∧ (cut = raw ↔ '>' ∉ raw)
    ∧ urlEncode raw ++ ['>'] = urlEncode cut ++ '>' :: rest
  := by
  by_cases hmem : '>' ∈ raw
  · obtain ⟨cut, rest, rfl, hcut⟩ := eq_append_cons_of_mem hmem
    refine ⟨cut, urlEncode rest ++ ['>'], prefix_append _ _, hcut, ?_, ?_⟩
    · simp
    · rw [urlEncode_append, urlEncode_cons, append_assoc]
      rfl
  · exact ⟨raw, [], prefix_rfl, hmem, by simp [hmem], rfl⟩

theorem ReferTo.exists_display_eq (refer : ReferTo) :
  ∃ inside, refer.display = '<' :: inside ++ ['>']
  := by
  rw [display]
  split <;> exact ⟨_, rfl⟩

theorem ReferTo.display_trim (refer : ReferTo) :
  Text.trim refer.display = refer.display
  := by
  obtain ⟨inside, hinside⟩ := refer.exists_display_eq
  rw [hinside, trim_bracket]

theorem parseReferTo_bracket {uri query rest : Text} (huri : '?' ∉ uri)
    (hinside : '>' ∉ uri ++ '?' :: query)
    (htrim : Text.trim ('<' :: (uri ++ '?' :: query) ++ '>' :: rest)
      = '<' :: (uri ++ '?' :: query) ++ '>' :: rest) :
  parseReferTo ('<' :: (uri ++ '?' :: query) ++ '>' :: rest)
    = ((query.splitOn '&').foldlM readReplaces none).map (mk uri)
  := by
  rw [parseReferTo, htrim, referUri_bracket hinside]
  simp only [bind, Except.bind, splitOnce_append huri]
  rfl

theorem parseReferTo_display_some_iff {uri : Text} (hr : IsReplaces r) (huri : '?' ∉ uri)
    (hclose : '>' ∉ uri) :
  parseReferTo (display ⟨uri, some r⟩) = .ok ⟨uri, some r⟩
    ↔ '>' ∉ r.display ∧ '&' ∉ r.display ∧ escapesSurvive r.display = true
  := by
  obtain ⟨cut, rest, hpre, hcut, hall, htext⟩ := exists_cut r.display
  obtain ⟨first, more, hsplit⟩ := exists_cons_of_ne_nil
    (show cut.splitOn '&' ≠ [] from splitOn_ne_nil _ _)
  have hsplit' := eq_append_flatMap_of_splitOn hsplit
  have hfirst : '&' ∉ first := (mem_splitOn (hsplit ▸ mem_cons_self)).1
  have hle : first <+: cut := by
    rw [hsplit']
    exact prefix_append _ _
  have hinside : '>' ∉ uri ++ '?' :: ("Replaces=".toList ++ urlEncode cut) := by
    have hcut' := not_mem_urlEncode (by decide) (.inr hcut)
    simp [hclose, hcut']
  have hdisplay : display ⟨uri, some r⟩
      = '<' :: (uri ++ '?' :: ("Replaces=".toList ++ urlEncode cut)) ++ '>' :: rest := by
    change '<' :: uri ++ "?Replaces=".toList ++ urlEncode r.display ++ ['>'] = _
    rw [append_assoc, htext]
    simp
  have htrim := display_trim ⟨uri, some r⟩
  rw [hdisplay] at htrim
  have hmap : ((parseReplacesValue (embedded first)).map some).map (mk uri)
      = .ok ⟨uri, some r⟩ ↔ parseReplacesValue (embedded first) = .ok r := by
    cases parseReplacesValue (embedded first) <;> simp [Except.map]
  rw [hdisplay, parseReferTo_bracket huri hinside htrim, foldlM_readReplaces_embedded hsplit, hmap,
    parseReplacesValue_embedded_iff hr (hle.trans hpre), ← and_assoc]
  refine and_congr_left fun _ => ⟨?_, ?_⟩
  · intro hwhole
    have hcutall : cut = r.display :=
      hpre.eq_of_length (hpre.length_le.antisymm (hwhole ▸ hle.length_le))
    exact ⟨hall.mp hcutall, hwhole ▸ hfirst⟩
  · rintro ⟨hclose, hamp⟩
    rw [hall.mpr hclose, splitOn_eq_singleton hamp] at hsplit
    exact (List.cons.inj hsplit).1.symm

/-! ### The values that carry over -/

/-- What is kept of the decoded text of a `Replaces` header: the Call-ID, the last of each tag and
whether there is an `early-only`. -/
def keptText (text : Text) : Text :=
  match (Text.trim text).splitOn ';' with
  | [] => []
  | first :: parts =>
    let params := parts.map Text.trim
    Text.trim first ++ ";from-tag=".toList ++ (lastParam "from-tag=".toList params).getD []
      ++ ";to-tag=".toList ++ (lastParam "to-tag=".toList params).getD []
      ++ if params.contains "early-only".toList then ";early-only".toList else []

theorem keptText_eq {text : Text} (h : parseReplacesValue text = .ok r) :
  keptText text = r.display
  := by
  obtain ⟨first, parts, hsplit, hcall, -, hparams⟩ := parseReplacesValue_eq_ok.mp h
  rw [keptText, hsplit]
  dsimp only
  rw [hcall, hparams.fromTag, hparams.toTag, hparams.earlyOnly]
  rfl

def lastReplaces (headers : List Text) : Option Text :=
  (headers.filterMap fun h =>
    (h.dropPrefix? "Replaces=".toList).or (h.dropPrefix? "replaces=".toList)).getLast?

theorem foldlM_readReplaces {headers : List Text} {init replaces : Option Replaces}
    (h : headers.foldlM readReplaces init = .ok replaces) :
  (lastReplaces headers = none ∧ replaces = init)
    ∨ ∃ value r, lastReplaces headers = some value ∧ replaces = some r
      ∧ parseReplacesValue (urlDecode value) = .ok r
  := by
  induction headers generalizing init with
  | nil =>
    cases h
    exact .inl ⟨rfl, rfl⟩
  | cons header headers ih =>
    rw [foldlM_cons, readReplaces] at h
    rw [lastReplaces, filterMap_cons]
    cases hvalue : (header.dropPrefix? "Replaces=".toList).or
        (header.dropPrefix? "replaces=".toList) with
    | none =>
      rw [hvalue] at h
      exact ih h
    | some value =>
      rw [hvalue] at h
      dsimp only at h ⊢
      cases hparse : parseReplacesValue (urlDecode value) with
      | error e =>
        rw [hparse] at h
        cases h
      | ok r =>
        rw [hparse] at h
        rw [List.getLast?_cons]
        rcases ih h with ⟨hlast, rfl⟩ | ⟨value', r', hlast, hr', hparse'⟩
        · rw [lastReplaces] at hlast
          exact .inr ⟨value, r, by rw [hlast]; rfl, rfl, hparse⟩
        · rw [lastReplaces] at hlast
          exact .inr ⟨value', r', by rw [hlast]; rfl, hr', hparse'⟩

def givenUri (input : Text) : Text :=
  match referUri (Text.trim input) with
  | .ok uri => uri
  | .error _ => []

def givenTarget (input : Text) : Text :=
  (givenUri input).takeWhile (· != '?')

def givenHeaders (input : Text) : List Text :=
  (((givenUri input).dropWhile (· != '?')).drop 1).splitOn '&'

/-- The `Refer-To` values that carry over: there is no closing bracket in the target, and in what
is kept of the decoded `Replaces` header there is no line break, closing bracket, ampersand or `%`
that would be read with what follows it. -/
def CarriesOver (input : Text) : Prop :=
  '>' ∉ givenTarget input
    ∧ ∀ value ∈ lastReplaces (givenHeaders input), OneLine (keptText (urlDecode value))
      ∧ '>' ∉ keptText (urlDecode value) ∧ '&' ∉ keptText (urlDecode value)
      ∧ escapesSurvive (keptText (urlDecode value)) = true

theorem given_of_parseReferTo (h : parseReferTo input = .ok refer) :
  givenTarget input = refer.uri ∧ '?' ∉ refer.uri
    ∧ ((lastReplaces (givenHeaders input) = none ∧ refer.replaces = none)
      ∨ ∃ value r, lastReplaces (givenHeaders input) = some value ∧ refer.replaces = some r
        ∧ parseReplacesValue (urlDecode value) = .ok r)
  := by
  obtain ⟨uri, huri, hrefer⟩ := parseReferTo_eq_ok.mp h
  have hgiven : givenUri input = uri := by rw [givenUri, huri]
  rw [givenTarget, givenHeaders, hgiven]
  rcases hrefer with ⟨query, rfl, hmem, hfold⟩ | ⟨hmem, rfl⟩
  · have hne : ∀ c ∈ refer.uri, (c != '?') = true := by
      intro c hc
      rw [bne_iff_ne]
      rintro rfl
      exact hmem hc
    obtain ⟨htake, hdrop⟩ := takeWhile_dropWhile_append hne
      (r := '?' :: query) (by simp)
    rw [htake, hdrop]
    exact ⟨rfl, hmem, foldlM_readReplaces hfold⟩
  · have hne : ∀ c ∈ uri, (c != '?') = true := by
      intro c hc
      rw [bne_iff_ne]
      rintro rfl
      exact hmem hc
    rw [takeWhile_eq_self_iff.mpr hne, dropWhile_eq_nil_iff.mpr hne]
    exact ⟨rfl, hmem, .inl ⟨by decide, rfl⟩⟩

/-- The `Replaces` text of an accepted `Refer-To` is on one line and is read back as the same
dialog, and the `Refer-To` is read back as it was, exactly for the values that carry over. -/
theorem carriesOver_iff_of_parseReferTo {input : Text} {refer : ReferTo}
    (h : parseReferTo input = .ok refer) :
  ((∀ r ∈ refer.replaces, OneLine r.display ∧ parseReplaces r.display = .ok r)
      ∧ parseReferTo refer.display = .ok refer)
    ↔ CarriesOver input
  := by
  obtain ⟨htarget, hquery, hreplaces⟩ := given_of_parseReferTo h
  obtain ⟨uri, replaces⟩ := refer
  rw [CarriesOver, htarget]
  by_cases hclose : '>' ∈ uri
  · -- the printed target is cut off at its own closing bracket
    constructor
    · rintro ⟨-, hread⟩
      obtain ⟨inside, hinside⟩ := exists_display_eq ⟨uri, replaces⟩
      rw [hinside] at hread
      exact absurd hclose (not_mem_of_parseReferTo_bracket hread)
    · exact fun hcarry => absurd hclose hcarry.1
  · rcases hreplaces with ⟨hlast, hnone⟩ | ⟨value, r, hlast, hsome, hparse⟩
    · subst hnone
      rw [hlast]
      have hread : parseReferTo (display ⟨uri, none⟩) = .ok ⟨uri, none⟩ := by
        rw [parseReferTo_eq_ok, display_trim]
        exact ⟨uri, referUri_bracket hclose [], .inr ⟨hquery, rfl⟩⟩
      simp [hread, hclose]
    · subst hsome
      have hr := isReplaces_of_parseReplacesValue hparse
      have hback : parseReplaces r.display = .ok r := by
        rw [parseReplaces, hr.display_trim, parseReplacesValue_display hr]
      rw [hlast, parseReferTo_display_some_iff hr hquery hclose]
      simp [hback, hclose, keptText_eq hparse]

/-- A `Refer-To` with a dialog, a header of no interest and an escaped `@`. -/
def attendedTransfer : Text :=
  "<sip:b@h?Subject=x&Replaces=c%40h%3Bto-tag%3Db%3Bfrom-tag%3Da>".toList

theorem carriesOver_attendedTransfer :
  parseReferTo attendedTransfer
      = .ok ⟨"sip:b@h".toList, some ⟨"c@h".toList, "a".toList, "b".toList, false⟩⟩
    ∧ CarriesOver attendedTransfer
  := by
  have hparse : parseReferTo attendedTransfer
      = .ok ⟨"sip:b@h".toList, some ⟨"c@h".toList, "a".toList, "b".toList, false⟩⟩ := by
    decide +kernel
  refine ⟨hparse, (carriesOver_iff_of_parseReferTo hparse).mp ?_⟩
  decide +kernel

/-- A `Refer-To` on one line may put a header of its own on the INVITE it triggers, and one with
an escaped `%` is read back as no dialog at all. -/
theorem lineBreak_in_replaces_of_escape :
  ∃ input refer r, OneLine input ∧ parseReferTo input = .ok refer ∧ refer.replaces = some r
      ∧ ¬ OneLine r.display
    ∧ ∃ input' refer', OneLine input' ∧ parseReferTo input' = .ok refer'
      ∧ parseReferTo refer'.display ≠ .ok refer'
  := by
  use "<sip:b@h?Replaces=c%0D%0AX:y%3Bfrom-tag%3Da%3Bto-tag%3Db>".toList,
    ⟨"sip:b@h".toList, some ⟨"c\r\nX:y".toList, "a".toList, "b".toList, false⟩⟩,
    ⟨"c\r\nX:y".toList, "a".toList, "b".toList, false⟩
  refine ⟨by decide +kernel, by decide +kernel, rfl, by decide +kernel, ?_⟩
  use "<sip:b@h?Replaces=c%25%3Bfrom-tag%3Da%3Bto-tag%3Db>".toList,
    ⟨"sip:b@h".toList, some ⟨"c%".toList, "a".toList, "b".toList, false⟩⟩
  decide +kernel

end Siphon
