import Siphon.Gateway.View

/-!
# The view answers like a scan

Two networks are nested or disjoint, so dropping the contained ones loses no address, and the merged
ranges of a family lie apart, in order.
-/

namespace Siphon

open List IpAddr

/-- The place of an address in the order of all addresses. -/
def IpAddr.rank : IpAddr → ℕ
  | .v4 bits => bits.toNat
  | .v6 bits => 2 ^ 32 + bits.toNat

theorem IpAddr.cmp_eq (a b : IpAddr) :
  a.cmp b = compare a.rank b.rank
  := by
  cases a with
  | v4 a =>
    cases b with
    | v4 b => rfl
    | v6 b =>
    exact (Nat.compare_eq_lt.mpr (by simp only [rank]; omega)).symm
  | v6 a =>
    cases b with
    | v4 b =>
      exact (Nat.compare_eq_gt.mpr (by simp only [rank]; omega)).symm
    | v6 b =>
      simp only [cmp, rank]
      rcases lt_trichotomy a.toNat b.toNat with h | h | h
      · rw [Nat.compare_eq_lt.mpr h, Nat.compare_eq_lt.mpr (by omega)]
      · rw [Nat.compare_eq_eq.mpr h, Nat.compare_eq_eq.mpr (by omega)]
      · rw [Nat.compare_eq_gt.mpr h, Nat.compare_eq_gt.mpr (by omega)]

namespace Gateway

/-! ### Networks -/

namespace Net

variable {width : ℕ} (net : Net width)

def size : ℕ :=
  2 ^ (width - net.prefixLen)

theorem size_pos :
  0 < net.size
  := Nat.two_pow_pos _

theorem network_toNat :
  net.network.toNat = net.size * (net.addr.toNat / net.size)
  := by
  apply Nat.eq_of_testBit_eq
  intro i
  rw [size, Nat.mul_comm, Nat.testBit_mul_two_pow, Nat.testBit_div_two_pow, network, netmask,
    BitVec.toNat_and, Nat.testBit_and, BitVec.testBit_toNat, BitVec.testBit_toNat,
    BitVec.testBit_toNat, BitVec.getLsbD_shiftLeft, BitVec.getLsbD_allOnes]
  by_cases hle : width - net.prefixLen ≤ i
  · rw [Nat.sub_add_cancel hle]
    by_cases hi : i < width
    · have hlt : i - (width - net.prefixLen) < width := by omega
      simp [hle, hi, hlt]
    · simp [BitVec.getLsbD_of_ge net.addr i (by omega)]
  · simp [hle]

theorem broadcast_toNat :
  net.broadcast.toNat = net.network.toNat + (net.size - 1)
  := by
  have hmask : net.hostmask.toNat = net.size - 1 := by
    apply Nat.eq_of_testBit_eq
    intro i
    have hle := net.prefixLen_le
    rw [size, Nat.testBit_two_pow_sub_one, hostmask, BitVec.testBit_toNat,
      BitVec.getLsbD_ushiftRight, BitVec.getLsbD_allOnes]
    simp only [decide_eq_decide]
    omega
  have hlt : 2 ^ (width - net.prefixLen) - 1 < 2 ^ (width - net.prefixLen) :=
    Nat.sub_lt (Nat.two_pow_pos _) Nat.one_pos
  rw [network_toNat, broadcast, BitVec.toNat_or, hmask, size, Nat.two_pow_add_eq_or_of_lt hlt]
  apply Nat.eq_of_testBit_eq
  intro i
  rw [Nat.testBit_or, Nat.testBit_or, Nat.mul_comm, Nat.testBit_mul_two_pow,
    Nat.testBit_two_pow_sub_one, Nat.testBit_div_two_pow]
  by_cases hle : width - net.prefixLen ≤ i
  · simp [hle]
  · simp [not_le.mp hle]

theorem network_le_broadcast :
  net.network.toNat ≤ net.broadcast.toNat
  := by
  rw [broadcast_toNat]
  exact Nat.le_add_right _ _

theorem disjoint_or_nested {net other : Net width} (h : net.prefixLen ≤ other.prefixLen) :
  net.broadcast.toNat < other.network.toNat ∨ other.broadcast.toNat < net.network.toNat
    ∨ (net.network.toNat ≤ other.network.toNat ∧ other.broadcast.toNat ≤ net.broadcast.toNat)
  := by
  -- In units of the narrower one, the broader one is a whole number of them.
  obtain ⟨factor, hfactor⟩ : ∃ factor, net.size = other.size * factor := by
    have hle := other.prefixLen_le
    refine ⟨2 ^ (other.prefixLen - net.prefixLen), ?_⟩
    rw [size, size, ← Nat.pow_add]
    congr 1
    omega
  have hpos' := net.size_pos
  rw [broadcast_toNat, broadcast_toNat, network_toNat, network_toNat]
  generalize net.addr.toNat / net.size = k
  generalize other.addr.toNat / other.size = j
  generalize net.size = big at *
  generalize other.size = unit at *
  subst hfactor
  rcases lt_or_ge j (factor * k) with hlt | hge
  · have h1 : unit * (j + 1) ≤ unit * (factor * k) := Nat.mul_le_mul_left _ hlt
    rw [Nat.mul_add, ← Nat.mul_assoc] at h1
    omega
  rcases lt_or_ge j (factor * k + factor) with hlt | hge'
  · have h1 : unit * (factor * k) ≤ unit * j := Nat.mul_le_mul_left _ hge
    have h2 : unit * (j + 1) ≤ unit * (factor * k + factor) := Nat.mul_le_mul_left _ hlt
    rw [Nat.mul_add, Nat.mul_add, ← Nat.mul_assoc] at h2
    rw [← Nat.mul_assoc] at h1
    omega
  · left
    have h1 : unit * (factor * k + factor) ≤ unit * j := Nat.mul_le_mul_left _ hge'
    rw [Nat.mul_add, ← Nat.mul_assoc] at h1
    omega
end Net

namespace IpNet

def first (net : IpNet) : ℕ :=
  net.network.rank

def last (net : IpNet) : ℕ :=
  net.broadcast.rank

theorem first_le_last (net : IpNet) :
  net.first ≤ net.last
  := by
  cases net with
  | v4 net => exact net.network_le_broadcast
  | v6 net => exact Nat.add_le_add_left net.network_le_broadcast _

theorem contains_iff (net other : IpNet) :
  net.contains other = true ↔ net.first ≤ other.first ∧ other.last ≤ net.last
  := by
  rcases net with net | net <;> rcases other with other | other
  case v4.v4 | v6.v6 =>
    simp [contains, Net.contains, first, last, network, broadcast, rank, BitVec.le_def]
  case v4.v6 | v6.v4 =>
    simp only [contains, first, last, network, broadcast, rank]
    constructor
    · nofun
    · omega

theorem containsAddr_iff (net : IpNet) (address : IpAddr) :
  net.containsAddr address = true ↔ net.first ≤ address.rank ∧ address.rank ≤ net.last
  := by
  rcases net with net | net <;> rcases address with address | address
  case v4.v4 | v6.v6 =>
    simp [containsAddr, Net.containsAddr, first, last, network, broadcast, rank, BitVec.le_def]
  case v4.v6 | v6.v4 =>
    simp only [containsAddr, first, last, network, broadcast, rank]
    constructor
    · nofun
    · omega

theorem laminar (a b : IpNet) :
  a.last < b.first ∨ b.last < a.first ∨ (a.first ≤ b.first ∧ b.last ≤ a.last)
    ∨ (b.first ≤ a.first ∧ a.last ≤ b.last)
  := by
  rcases a with a | a <;> rcases b with b | b
  case v4.v4 | v6.v6 =>
    rcases le_total a.prefixLen b.prefixLen with hle | hle
    all_goals
      have := Net.disjoint_or_nested hle
      simp only [first, last, network, broadcast, rank]
      omega
  case v4.v6 | v6.v4 =>
    simp only [first, last, network, broadcast, rank]
    omega

theorem last_le_of_first_eq {a b : IpNet} (hfirst : a.first = b.first)
    (hlen : a.prefixLen ≤ b.prefixLen) :
  b.last ≤ a.last
  := by
  have hsize : ∀ {width : ℕ} {c d : Net width}, c.prefixLen ≤ d.prefixLen → d.size ≤ c.size := by
    intro width c d hle
    exact Nat.pow_le_pow_right Nat.two_pos (Nat.sub_le_sub_left hle width)
  rcases a with a | a <;> rcases b with b | b
  case v4.v4 | v6.v6 =>
    have := hsize hlen
    simp only [first, last, network, broadcast, rank, Net.broadcast_toNat] at *
    omega
  case v4.v6 | v6.v4 =>
    simp only [first, network, rank] at hfirst
    omega

end IpNet

/-! ### Merging -/

theorem then_ne_gt_iff (a b c d : ℕ) :
  ((compare a b).then (compare c d) ≠ .gt) ↔ a < b ∨ a = b ∧ c ≤ d
  := by
  rcases lt_trichotomy a b with h | h | h
  · simp [Nat.compare_eq_lt.mpr h, h]
  · simp [h, Nat.compare_ne_gt]
  · simp [Nat.compare_eq_gt.mpr h]
    omega

section

variable {τ : Type} {items : List τ} {network : τ → IpNet}

theorem sortsBefore_iff (left right : τ) :
  ((network left).network.cmp (network right).network).then
      (compare (network left).prefixLen (network right).prefixLen) ≠ .gt
    ↔ (network left).first < (network right).first
      ∨ (network left).first = (network right).first
        ∧ (network left).prefixLen ≤ (network right).prefixLen
  := by
  rw [cmp_eq, then_ne_gt_iff]
  rfl

theorem mem_of_mem_normaliseBy {item : τ} (h : item ∈ normaliseBy items network) :
  item ∈ items
  := mem_mergeSort.mp (Intervals.absorb_subset _ _ item h)

theorem exists_mem_normaliseBy {item : τ} (h : item ∈ items) :
  ∃ held ∈ normaliseBy items network, (network held).contains (network item) = true
  := by
  refine Intervals.exists_mem_absorb ?_ (mem_mergeSort.mpr h)
  intro held
  rw [IpNet.contains_iff]
  exact ⟨le_rfl, le_rfl⟩

theorem apart_normaliseBy :
  Intervals.Apart (fun item => (network item).first) (fun item => (network item).last)
    (normaliseBy items network)
  := by
  refine @Intervals.apart_absorb _ _ _ (fun item => (network item).first)
    (fun item => (network item).last) _ (fun a b => IpNet.contains_iff _ _) _
    (fun item _ => (network item).first_le_last) (fun a _ b _ => IpNet.laminar _ _) ?_
  refine List.Pairwise.imp ?_ (pairwise_mergeSort ?_ ?_ items)
  · intro left right h
    rcases (sortsBefore_iff left right).mp (of_decide_eq_true h) with hlt | ⟨heq, hlen⟩
    · exact .inl hlt
    · exact .inr ⟨heq, IpNet.last_le_of_first_eq heq hlen⟩
  · intro a b c hab hbc
    simp only [decide_eq_true_eq, sortsBefore_iff] at hab hbc ⊢
    omega
  · intro a b
    simp only [Bool.or_eq_true, decide_eq_true_eq, sortsBefore_iff]
    omega

end

/-! ### Looking up -/

def v4Bounds : IpNet → Option (ℕ × ℕ)
  | .v4 net => some (net.network.toNat, net.broadcast.toNat)
  | .v6 _ => none

def v6Bounds : IpNet → Option (ℕ × ℕ)
  | .v4 _ => none
  | .v6 net => some (net.network.toNat, net.broadcast.toNat)

variable (bounds : IpNet → Option (ℕ × ℕ))

def spanOf (range : AdmittedRange) : Option Span :=
  (bounds range.network).map fun pair => ⟨pair.1, pair.2, range.network, range.group⟩

def spans (sources : List AdmittedRange) : List Span :=
  (normaliseBy sources AdmittedRange.network).filterMap (spanOf bounds)

/-- The bounds of a family are ranks, counted from the first address of the family. -/
def Ranked (shift : ℕ) : Prop :=
  ∀ net pair, bounds net = some pair → net.first = shift + pair.1 ∧ net.last = shift + pair.2

theorem ranked_v4Bounds :
  Ranked v4Bounds 0
  := by
  rintro (net | net) pair ⟨⟩
  exact ⟨(Nat.zero_add _).symm, (Nat.zero_add _).symm⟩

theorem ranked_v6Bounds :
  Ranked v6Bounds (2 ^ 32)
  := by
  rintro (net | net) pair ⟨⟩
  exact ⟨rfl, rfl⟩

theorem build_eq (sources : List AdmittedRange) :
  GatewaySnapshot.build sources = { v4 := spans v4Bounds sources, v6 := spans v6Bounds sources }
  := by
  have hfold : ∀ (ranges : List AdmittedRange) (snapshot : GatewaySnapshot),
      ranges.foldl GatewaySnapshot.push snapshot
        = { v4 := snapshot.v4 ++ ranges.filterMap (spanOf v4Bounds)
            v6 := snapshot.v6 ++ ranges.filterMap (spanOf v6Bounds) } := by
    intro ranges
    induction ranges with
    | nil => simp
    | cons range ranges ih =>
    intro snapshot
    rw [foldl_cons, ih, GatewaySnapshot.push]
    cases hnet : range.network with
    | v4 net | v6 net => simp [spanOf, v4Bounds, v6Bounds, hnet]
  exact hfold _ {}

section

variable {bounds : IpNet → Option (ℕ × ℕ)} {shift : ℕ} {sources : List AdmittedRange}

section

variable (h : Ranked bounds shift)

include h

theorem Ranked.spanOf_eq_some {range : AdmittedRange} {span : Span}
    (hspan : spanOf bounds range = some span) :
  range.network.first = shift + span.first ∧ range.network.last = shift + span.last
    ∧ span.network = range.network ∧ span.group = range.group
  := by
  obtain ⟨pair, hpair, rfl⟩ := Option.map_eq_some_iff.mp hspan
  obtain ⟨hfirst, hlast⟩ := h _ pair hpair
  exact ⟨hfirst, hlast, rfl, rfl⟩

theorem Ranked.apart_spans (sources : List AdmittedRange) :
  Intervals.Apart Span.first Span.last (spans bounds sources)
  := by
  refine apart_normaliseBy.filterMap (spanOf bounds) ?_
  intro a b hab span hspan span' hspan'
  have hfirst := h.spanOf_eq_some hspan
  have hlast := h.spanOf_eq_some hspan'
  dsimp only at hab
  omega

theorem Ranked.first_le_last :
  ∀ span ∈ spans bounds sources, span.first ≤ span.last
  := by
  intro span hspan
  obtain ⟨range, -, hrange⟩ := mem_filterMap.mp hspan
  have hbounds := h.spanOf_eq_some hrange
  have hle := range.network.first_le_last
  omega

theorem Ranked.find_eq_some_iff {key : ℕ} {span : Span} :
  find (spans bounds sources) key = some span
    ↔ ∃ range ∈ normaliseBy sources AdmittedRange.network, spanOf bounds range = some span
      ∧ range.network.first ≤ shift + key ∧ shift + key ≤ range.network.last
  := by
  rw [find, Intervals.locate_eq_some_iff (h.apart_spans sources) h.first_le_last, spans,
    mem_filterMap]
  constructor
  · rintro ⟨⟨range, hrange, hspan⟩, hfirst, hlast⟩
    have hbounds := h.spanOf_eq_some hspan
    exact ⟨range, hrange, hspan, by omega, by omega⟩
  · rintro ⟨range, hrange, hspan, hfirst, hlast⟩
    have hbounds := h.spanOf_eq_some hspan
    exact ⟨⟨range, hrange, hspan⟩, by omega, by omega⟩

theorem Ranked.group_eq_some_iff {key : ℕ} {group : Text}
    (hfamily : ∀ net : IpNet, net.first ≤ shift + key → shift + key ≤ net.last →
      (bounds net).isSome) :
  (find (spans bounds sources) key).map Span.group = some group
    ↔ ∃ range ∈ normaliseBy sources AdmittedRange.network, range.group = group
      ∧ range.network.first ≤ shift + key ∧ shift + key ≤ range.network.last
  := by
  rw [Option.map_eq_some_iff]
  constructor
  · rintro ⟨span, hfind, rfl⟩
    obtain ⟨range, hrange, hspan, hbounds⟩ := h.find_eq_some_iff.mp hfind
    exact ⟨range, hrange, (h.spanOf_eq_some hspan).2.2.2.symm, hbounds⟩
  · rintro ⟨range, hrange, rfl, hfirst, hlast⟩
    obtain ⟨pair, hpair⟩ := Option.isSome_iff_exists.mp (hfamily _ hfirst hlast)
    have hspan : spanOf bounds range = some ⟨pair.1, pair.2, range.network, range.group⟩ :=
      Option.map_eq_some_iff.mpr ⟨pair, hpair, rfl⟩
    exact ⟨_, h.find_eq_some_iff.mpr ⟨range, hrange, hspan, hfirst, hlast⟩, rfl⟩

end

end

section

variable {sources : List AdmittedRange} {net : IpNet}

theorem isSome_v4Bounds {address : BitVec 32} (h : net.first ≤ 0 + address.toNat) :
  (v4Bounds net).isSome
  := by
  cases net with
  | v4 net => rfl
  | v6 net =>
  simp only [IpNet.first, IpNet.network, rank] at h
  omega

theorem isSome_v6Bounds {address : BitVec 128} (h : 2 ^ 32 + address.toNat ≤ net.last) :
  (v6Bounds net).isSome
  := by
  cases net with
  | v6 net => rfl
  | v4 net =>
  simp only [IpNet.last, IpNet.broadcast, rank] at h
  omega

variable {address : IpAddr}

theorem groupOf_eq_some_iff {group : Text} :
  (GatewaySnapshot.build sources).groupOf address = some group
    ↔ ∃ range ∈ normaliseBy sources AdmittedRange.network,
      range.group = group ∧ range.network.containsAddr address = true
  := by
  simp only [IpNet.containsAddr_iff, build_eq]
  cases address with
  | v4 address =>
    rw [GatewaySnapshot.groupOf,
      ranked_v4Bounds.group_eq_some_iff fun net hfirst _ => isSome_v4Bounds hfirst]
    simp only [rank, Nat.zero_add]
  | v6 address =>
    rw [GatewaySnapshot.groupOf,
      ranked_v6Bounds.group_eq_some_iff fun net _ hlast => isSome_v6Bounds hlast]
    rfl

theorem contains_iff_merged :
  (GatewaySnapshot.build sources).contains address = true
    ↔ ∃ range ∈ normaliseBy sources AdmittedRange.network,
      range.network.containsAddr address = true
  := by
  rw [GatewaySnapshot.contains, Option.isSome_iff_exists]
  simp only [groupOf_eq_some_iff]
  constructor
  · rintro ⟨group, range, hrange, -, hcontains⟩
    exact ⟨range, hrange, hcontains⟩
  · rintro ⟨range, hrange, hcontains⟩
    exact ⟨range.group, range, hrange, rfl, hcontains⟩

theorem contains_iff_source :
  (GatewaySnapshot.build sources).contains address = true
    ↔ ∃ range ∈ sources, range.network.containsAddr address = true
  := by
  rw [contains_iff_merged]
  constructor
  · rintro ⟨range, hrange, hcontains⟩
    exact ⟨range, mem_of_mem_normaliseBy hrange, hcontains⟩
  rintro ⟨range, hrange, hcontains⟩
  obtain ⟨held, hheld, hwithin⟩ := exists_mem_normaliseBy hrange
  refine ⟨held, hheld, ?_⟩
  rw [IpNet.containsAddr_iff] at hcontains ⊢
  rw [IpNet.contains_iff] at hwithin
  omega

/-! ### Publishing -/

theorem mem_ranges {range : AdmittedRange} (h : range ∈ normaliseBy sources AdmittedRange.network) :
  range ∈ (GatewaySnapshot.build sources).ranges
  := by
  rw [build_eq, GatewaySnapshot.ranges, mem_map]
  cases hnet : range.network with
  | v4 net =>
    refine ⟨⟨net.network.toNat, net.broadcast.toNat, range.network, range.group⟩,
      mem_append_left _ (mem_filterMap.mpr ⟨range, h, ?_⟩), rfl⟩
    simp [spanOf, hnet, v4Bounds]
  | v6 net =>
    refine ⟨⟨net.network.toNat, net.broadcast.toNat, range.network, range.group⟩,
      mem_append_right _ (mem_filterMap.mpr ⟨range, h, ?_⟩), rfl⟩
    simp [spanOf, hnet, v6Bounds]

theorem exists_of_covers (h : (GatewaySnapshot.build sources).covers net = true) :
  ∃ range ∈ normaliseBy sources AdmittedRange.network,
    range.network.first ≤ net.first ∧ net.last ≤ range.network.last
  := by
  rw [build_eq] at h
  cases net with
  | v4 net =>
    obtain ⟨span, hfind, hlast⟩ := (Option.any_eq_true _ _).mp h
    obtain ⟨range, hrange, hspan, hfirst, -⟩ := ranked_v4Bounds.find_eq_some_iff.mp hfind
    have hbounds := ranked_v4Bounds.spanOf_eq_some hspan
    have hle : net.broadcast.toNat ≤ span.last := of_decide_eq_true hlast
    refine ⟨range, hrange, ?_, ?_⟩
    · simpa [IpNet.first, IpNet.network, rank] using hfirst
    · simp only [IpNet.last, IpNet.broadcast, rank] at hbounds ⊢
      omega
  | v6 net =>
    obtain ⟨span, hfind, hlast⟩ := (Option.any_eq_true _ _).mp h
    obtain ⟨range, hrange, hspan, hfirst, -⟩ := ranked_v6Bounds.find_eq_some_iff.mp hfind
    have hbounds := ranked_v6Bounds.spanOf_eq_some hspan
    have hle : net.broadcast.toNat ≤ span.last := of_decide_eq_true hlast
    refine ⟨range, hrange, hfirst, ?_⟩
    simp only [IpNet.last, IpNet.broadcast, rank] at hbounds ⊢
    omega

theorem contains_of_covers (h : (GatewaySnapshot.build sources).covers net = true)
    (haddress : net.containsAddr address = true) :
  (GatewaySnapshot.build sources).contains address = true
  := by
  obtain ⟨range, hrange, hfirst, hlast⟩ := exists_of_covers h
  refine contains_iff_merged.mpr ⟨range, hrange, ?_⟩
  rw [IpNet.containsAddr_iff] at haddress ⊢
  omega

theorem publish_tells (earlier sources : List AdmittedRange)
    (hnow : (publish (.build earlier) sources).1.contains address = true)
    (hbefore : (GatewaySnapshot.build earlier).contains address = false) :
  ∃ told ∈ (publish (.build earlier) sources).2, told.1 = .build sources
    ∧ ∃ range ∈ told.2, range.network.containsAddr address = true
  := by
  rw [publish] at hnow ⊢
  split at hnow
  · rw [hbefore] at hnow
    cases hnow
  rename_i hne
  obtain ⟨range, hrange, hcontains⟩ := contains_iff_merged.mp hnow
  rw [if_neg hne]
  refine ⟨_, mem_singleton_self _, rfl, range, ?_, hcontains⟩
  refine mem_filter.mpr ⟨mem_ranges hrange, ?_⟩
  rw [Bool.not_eq_true', ← Bool.not_eq_true]
  intro hcovers
  rw [contains_of_covers hcovers hcontains] at hbefore
  cases hbefore

/-- The view is the snapshot of what was published last. -/
theorem run_publish (before : List (List AdmittedRange)) (sources : List AdmittedRange) :
  viewMachine.run {} (before ++ [sources]) = .build sources
  := by
  rw [Machine.run_append, Machine.run_cons, Machine.run_nil]
  simp only [viewMachine, publish]
  split
  · assumption
  · rfl

/-- The view is always the snapshot of some ranges, at first of none. -/
theorem exists_eq_build (inputs : List (List AdmittedRange)) :
  ∃ sources, viewMachine.run {} inputs = .build sources
  := by
  rcases eq_nil_or_concat' inputs with rfl | ⟨before, sources, rfl⟩
  · exact ⟨[], by simp [GatewaySnapshot.build, normaliseBy, Intervals.absorb]⟩
  · exact ⟨sources, run_publish before sources⟩

end

/-- A lookup in a snapshot agrees with a scan of the ranges it was built from and names a group that
has a range with the address; the merged ranges of each family are in order and disjoint; and in a
run of publishes the view is the snapshot of the last and each tells of ranges that hold every
address it admits and the one before did not. -/
theorem view_agrees_with_scan :
  (∀ (sources : List AdmittedRange) (address : IpAddr),
      (GatewaySnapshot.build sources).contains address
          = sources.any (fun range => range.network.containsAddr address)
        ∧ ∀ group, (GatewaySnapshot.build sources).groupOf address = some group →
          ∃ range ∈ sources, range.group = group ∧ range.network.containsAddr address = true)
    ∧ (∀ sources : List AdmittedRange,
      ∀ spans ∈ [(GatewaySnapshot.build sources).v4, (GatewaySnapshot.build sources).v6],
        spans.Pairwise (fun a b => a.last < b.first) ∧ ∀ span ∈ spans, span.first ≤ span.last)
    ∧ ∀ (before : List (List AdmittedRange)) (sources : List AdmittedRange),
      viewMachine.run {} (before ++ [sources]) = GatewaySnapshot.build sources
        ∧ ∀ address : IpAddr,
          (viewMachine.run {} (before ++ [sources])).contains address = true →
          (viewMachine.run {} before).contains address = false →
          ∃ told ∈ (viewMachine.step (viewMachine.run {} before) sources).2,
            ∃ range ∈ told.2, range.network.containsAddr address = true
  := by
  refine ⟨?_, ?_, ?_⟩
  · intro sources address
    constructor
    · rw [Bool.eq_iff_iff, contains_iff_source, any_eq_true]
    · intro group hgroup
      obtain ⟨range, hrange, hcontains⟩ := groupOf_eq_some_iff.mp hgroup
      exact ⟨range, mem_of_mem_normaliseBy hrange, hcontains⟩
  · intro sources spans hspans
    rw [build_eq] at hspans
    simp only [mem_cons, not_mem_nil, or_false] at hspans
    rcases hspans with rfl | rfl
    · exact ⟨ranked_v4Bounds.apart_spans sources, ranked_v4Bounds.first_le_last⟩
    · exact ⟨ranked_v6Bounds.apart_spans sources, ranked_v6Bounds.first_le_last⟩
  · intro before sources
    refine ⟨run_publish before sources, ?_⟩
    intro address hnow hbefore
    obtain ⟨earlier, hearlier⟩ := exists_eq_build before
    rw [Machine.run_append, hearlier] at hnow
    rw [hearlier] at hbefore ⊢
    obtain ⟨told, htold, -, hrange⟩ := publish_tells earlier sources hnow hbefore
    exact ⟨told, htold, hrange⟩

end Gateway

end Siphon
