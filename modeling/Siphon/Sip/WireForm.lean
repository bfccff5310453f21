import Siphon.Sip.HeaderBlock

/-!
# The wire form, line by line

The head of a message is written as a list of lines: the start line and one row for each
value, the header fields in the order of their ranks.
-/

namespace Siphon

open List

open Lines (unlines)

namespace SipHeaders

/-! ### The order on the wire -/

theorem insertRanked_perm (e : Entry) (es : List Entry) :
  (insertRanked e es).Perm (e :: es)
  := by
  induction es with
  | nil => apply List.Perm.refl
  | cons x es ih =>
  rw [insertRanked]
  split
  · apply (ih.cons x).trans (List.Perm.swap e x es)
  · apply List.Perm.refl

theorem pairwise_insertRanked (e : Entry) {es : List Entry}
    (h : es.Pairwise fun a b => wireRank b.1 ≤ wireRank a.1) :
  (insertRanked e es).Pairwise fun a b => wireRank b.1 ≤ wireRank a.1
  := by
  induction es with
  | nil => simp [insertRanked]
  | cons x es ih =>
  obtain ⟨hx, hes⟩ := pairwise_cons.mp h
  rw [insertRanked]
  split
  · rename_i hlt
    refine pairwise_cons.mpr ⟨?_, ih hes⟩
    intro y hy
    rcases mem_cons.mp ((insertRanked_perm e es).mem_iff.mp hy) with rfl | hy
    · apply hlt.le
    · apply hx y hy
  · rename_i hle
    refine pairwise_cons.mpr ⟨?_, h⟩
    intro y hy
    rcases mem_cons.mp hy with rfl | hy
    · apply not_lt.mp hle
    · apply (hx y hy).trans (not_lt.mp hle)

theorem foldl_insertRanked (es acc : List Entry)
    (h : acc.Pairwise fun a b => wireRank b.1 ≤ wireRank a.1) :
  (es.foldl (fun ranked e => insertRanked e ranked) acc).Perm (es ++ acc)
    ∧ (es.foldl (fun ranked e => insertRanked e ranked) acc).Pairwise
      fun a b => wireRank b.1 ≤ wireRank a.1
  := by
  induction es generalizing acc with
  | nil => exact ⟨List.Perm.refl _, h⟩
  | cons e es ih =>
  obtain ⟨hperm, hsorted⟩ := ih _ (pairwise_insertRanked e h)
  refine ⟨?_, hsorted⟩
  apply hperm.trans
  apply ((insertRanked_perm e acc).append_left es).trans
  apply perm_middle

theorem ordered_iff {previous : ℕ} {es : List Entry} :
  ordered previous es = true
    ↔ (∀ e ∈ es, previous ≤ wireRank e.1) ∧ es.Pairwise fun a b => wireRank a.1 ≤ wireRank b.1
  := by
  induction es generalizing previous with
  | nil => simp [ordered]
  | cons e es ih =>
  simp only [ordered, Bool.and_eq_true, decide_eq_true_eq, ih, forall_mem_cons, pairwise_cons]
  constructor
  · rintro ⟨hle, hall, hpair⟩
    exact ⟨⟨hle, fun x hx => hle.trans (hall x hx)⟩, hall, hpair⟩
  · rintro ⟨⟨hle, -⟩, hall, hpair⟩
    exact ⟨hle, hall, hpair⟩

theorem wireOrder_perm (h : SipHeaders) :
  h.wireOrder.Perm h.headers.entries
  := by
  rw [wireOrder]
  split
  · apply List.Perm.refl
  · apply (reverse_perm _).trans
    simpa using (foldl_insertRanked h.headers.entries [] List.Pairwise.nil).1

theorem ordered_wireOrder (h : SipHeaders) :
  ordered 0 h.wireOrder = true
  := by
  rw [wireOrder]
  split
  · assumption
  rw [ordered_iff]
  refine ⟨by simp, ?_⟩
  rw [pairwise_reverse]
  apply (foldl_insertRanked h.headers.entries [] List.Pairwise.nil).2

theorem wireOrder_of_ordered {h : SipHeaders} (hord : ordered 0 h.headers.entries = true) :
  h.wireOrder = h.headers.entries
  := by
  rw [wireOrder, if_pos hord]

/-! ### Rows -/

def row (name value : Text) : Text :=
  name ++ ": ".toList ++ value

def rows (h : SipHeaders) : List Text :=
  h.wireOrder.flatMap fun e => e.2.2.map fun value => row e.2.1 value

theorem writeWire_eq (h : SipHeaders) :
  h.writeWire = Utf8.encode (unlines crlfText h.rows)
  := by
  have hrow (e : Entry) : pushHeaderRows e
      = Utf8.encode (unlines crlfText (e.2.2.map fun value => row e.2.1 value)) := by
    rw [pushHeaderRows, unlines, flatMap_map, Utf8.encode_flatMap]
    rfl
  rw [writeWire, rows, unlines, flatMap_assoc, Utf8.encode_flatMap]
  apply flatMap_congr
  intro e _
  apply hrow e

def valueCount (h : SipHeaders) : ℕ :=
  (h.headers.entries.map fun e => e.2.2.length).sum

theorem length_rows (h : SipHeaders) :
  h.rows.length = h.valueCount
  := by
  rw [rows, length_flatMap, valueCount]
  simp only [length_map]
  apply (h.wireOrder_perm.map _).sum_nat

end SipHeaders

def StartLine.line : StartLine → Text
  | .request req => req.method.asStr ++ ' ' :: req.requestUri.display ++ ' ' :: req.version.display
  | .response resp =>
    resp.version.display ++ ' ' :: Decimal.display resp.statusCode ++ ' ' :: resp.reasonPhrase

theorem StartLine.display_eq (line : StartLine) :
  line.display = line.line ++ crlfText
  := by
  cases line <;> rfl

theorem SipMessage.headBytes_eq (m : SipMessage) :
  m.headBytes = Utf8.encode (unlines crlfText (m.startLine.line :: m.headers.rows))
  := by
  rw [SipMessage.headBytes, StartLine.display_eq, SipHeaders.writeWire_eq, Lines.unlines_cons,
    ← Utf8.encode_append]

theorem count_unlines {ls : List Text} (h : ∀ l ∈ ls, '\n' ∉ l) :
  (unlines crlfText ls).count '\n' = ls.length
  := by
  induction ls with
  | nil => rfl
  | cons l ls ih =>
  rw [Lines.unlines_cons, count_append, count_append, ih fun k hk => h k
    (mem_cons_of_mem _ hk), count_eq_zero_of_not_mem (h l mem_cons_self)]
  simp [crlfText]
  omega

end Siphon
