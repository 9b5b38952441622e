import Mathlib.Data.Char
import RegexAlgebra.Proofs.Construction
import RegexAlgebra.Proofs.Partitions

/-! # Intervals as sets of symbols

The operations on intervals only compare bounds, and step from one symbol to the next. They are the operations on the
sets of symbols that the intervals hold, inverted bounds and the gap of the surrogates included. A non-empty interval
and its complement cut the alphabet, and all that is to be known about the complement is read off that partition.
-/

namespace RegexAlgebra

/-- The cells of a tiling ascend, and no two of them overlap. -/
theorem Partition.ascending_of_tilesFrom {low : Char} {cells : List Interval} (h : TilesFrom low cells) :
    cells.Pairwise (·.high < ·.low) := by
  induction cells generalizing low with
  | nil => exact h.elim
  | cons cell cells ih =>
      obtain ⟨_, _, hrest⟩ := tilesFrom_cons.1 h
      refine List.pairwise_cons.2 ⟨fun next hnext => lt_low_of_tilesAfter hrest hnext, ?_⟩
      unfold TilesAfter at hrest
      split at hrest
      · exact ih hrest
      · rw [hrest]
        exact .nil

namespace Interval

variable {i j : Interval} {is js : List Interval} {c : Char}

theorem isEmpty_iff_forall : i.isEmpty = true ↔ ∀ c, c ∉ i := by
  constructor
  · intro h c hc
    rw [isEmpty_iff, Symbol.lt_iff_position_lt] at h
    simp only [mem_iff, Symbol.le_iff_position_le] at hc
    omega
  · intro h
    by_contra hempty
    exact h i.low (low_mem (Bool.not_eq_true _ ▸ hempty))

theorem isFull_iff_forall : i.isFull = true ↔ ∀ c, c ∈ i := by
  constructor
  · exact fun h c => mem_of_isFull h
  · intro h
    have hlow : i.low = Symbol.first := Char.le_antisymm (h Symbol.first).1 (Symbol.first_le _)
    have hhigh : i.high = Symbol.last := Char.le_antisymm (Symbol.le_last _) (h Symbol.last).2
    simp [isFull, hlow, hhigh]

/-- Bounds suffice to compare intervals, as a non-empty one holds both of its own. -/
theorem containsInterval_iff : i.containsInterval j = true ↔ ∀ c ∈ j, c ∈ i := by
  cases hempty : j.isEmpty with
  | true => simpa [containsInterval, hempty] using fun c hc => absurd hc (isEmpty_iff_forall.1 hempty c)
  | false =>
      have hlow := low_mem hempty
      have hhigh : j.high ∈ j := ⟨hlow.2, Char.le_refl _⟩
      simp only [containsInterval, hempty, Bool.false_or, Bool.and_eq_true, decide_eq_true_iff]
      constructor
      · intro hbounds c hc
        exact ⟨Char.le_trans hbounds.1 hc.1, Char.le_trans hc.2 hbounds.2⟩
      · intro h
        exact ⟨(h _ hlow).1, (h _ hhigh).2⟩

/-! ## Intersections -/

theorem low_le_inter_left (i j : Interval) : i.low ≤ (i ∩ j).low := le_max_left i.low j.low

theorem low_le_inter_right (i j : Interval) : j.low ≤ (i ∩ j).low := le_max_right i.low j.low

theorem inter_high_le_left (i j : Interval) : (i ∩ j).high ≤ i.high := min_le_left i.high j.high

theorem inter_high_le_right (i j : Interval) : (i ∩ j).high ≤ j.high := min_le_right i.high j.high

theorem inter_comm (i j : Interval) : i ∩ j = j ∩ i :=
  congrArg₂ mk (max_comm i.low j.low) (min_comm i.high j.high)

theorem inter_assoc (i j k : Interval) : i ∩ j ∩ k = i ∩ (j ∩ k) :=
  congrArg₂ mk (max_assoc i.low j.low k.low) (min_assoc i.high j.high k.high)

theorem inter_self (i : Interval) : i ∩ i = i := congrArg₂ mk (max_self i.low) (min_self i.high)

/-! ## Common intersections -/

instance : Std.Commutative (α := Interval) (· ∩ ·) := ⟨inter_comm⟩

instance : Std.Associative (α := Interval) (· ∩ ·) := ⟨inter_assoc⟩

instance : Std.IdempotentOp (α := Interval) (· ∩ ·) := ⟨inter_self⟩

/-- The intersection of all the intervals, if there are any. -/
def common? (is : List Interval) : Option Interval :=
  is.foldr (fun i => Option.merge (· ∩ ·) (some i)) none

theorem common?_cons : common? (i :: is) = (some i).merge (· ∩ ·) (common? is) := rfl

theorem mem_common? : (∀ k ∈ common? is, c ∈ k) ↔ ∀ i ∈ is, c ∈ i := by
  induction is with
  | nil => simp [common?]
  | cons i is ih =>
      rw [List.forall_mem_cons, ← ih, common?_cons]
      cases common? is <;> simp [mem_inter]

theorem forall_mem_iff_of_common? (h : common? is = common? js) : (∀ i ∈ is, c ∈ i) ↔ ∀ j ∈ js, c ∈ j := by
  rw [← mem_common?, h, mem_common?]

theorem common?_append : common? (is ++ js) = (common? is).merge (· ∩ ·) (common? js) := by
  induction is with
  | nil => exact Option.merge_none_left.symm
  | cons i is ih =>
      rw [List.cons_append, common?_cons, ih, common?_cons]
      ac_rfl

theorem merge_common? (h : i ∈ is) : (some i).merge (· ∩ ·) (common? is) = common? is := by
  induction is with
  | nil => cases h
  | cons j is ih =>
      rw [common?_cons, ← (Option.associative_merge _).assoc]
      rcases List.mem_cons.1 h with rfl | h
      · rw [(Option.idempotentOp_merge _).idempotent]
      · rw [(Option.commutative_merge _).comm (some i), (Option.associative_merge _).assoc, ih h]

theorem common?_append_of_subset (h : is ⊆ js) : common? (is ++ js) = common? js := by
  induction is with
  | nil => rfl
  | cons i is ih =>
      obtain ⟨hi, his⟩ := List.cons_subset.1 h
      rw [List.cons_append, common?_cons, ih his, merge_common? hi]

/-- Neither the order of the intervals counts nor how often one of them is there. -/
theorem common?_congr (h : ∀ i, i ∈ is ↔ i ∈ js) : common? is = common? js := calc
  common? is = common? (js ++ is) := (common?_append_of_subset fun i => (h i).2).symm
  _ = common? (is ++ js) := by
    rw [common?_append, common?_append]
    ac_rfl
  _ = common? js := common?_append_of_subset fun i => (h i).1

/-! ## Complements -/

theorem complement_of_isEmpty (h : i.isEmpty = true) : i.complement = [full] := if_pos h

theorem complement_of_nonempty (h : i.isEmpty = false) : i.complement = i.below ++ i.above := by
  rw [complement, if_neg (by simp [h])]

/-- A non-empty interval is a cell of the partition that it makes, and its complement is the others. -/
theorem cells_perm (h : i.isEmpty = false) : i.cells.Perm (i :: i.complement) := by
  rw [complement_of_nonempty h]
  exact List.perm_middle

theorem complement_sublist (h : i.isEmpty = false) : i.complement.Sublist i.cells := by
  rw [complement_of_nonempty h]
  exact (List.sublist_cons_self i i.above).append_left i.below

theorem isEmpty_full : full.isEmpty = false := by decide +kernel

theorem mem_full (c : Char) : c ∈ full := ⟨Symbol.first_le c, Symbol.le_last c⟩

theorem nonempty_of_mem_complement (hj : j ∈ i.complement) : j.isEmpty = false := by
  cases hempty : i.isEmpty with
  | true =>
      rw [complement_of_isEmpty hempty, List.mem_singleton] at hj
      exact hj ▸ isEmpty_full
  | false =>
      have hle := (Partition.le_low_of_tilesFrom (isPartition_cells hempty) ((complement_sublist hempty).subset hj)).2
      rw [← Bool.not_eq_true, isEmpty_iff]
      exact Char.not_lt.2 hle

theorem ascending_complement (i : Interval) : i.complement.Pairwise (·.high < ·.low) := by
  cases hempty : i.isEmpty with
  | true =>
      rw [complement_of_isEmpty hempty]
      exact List.pairwise_singleton _ _
  | false => exact (Partition.ascending_of_tilesFrom (isPartition_cells hempty)).sublist (complement_sublist hempty)

/-- A symbol lies in just one cell, so in the complement if it does not lie in the interval. -/
theorem exists_mem_complement_iff : (∃ j ∈ i.complement, c ∈ j) ↔ c ∉ i := by
  cases hempty : i.isEmpty with
  | true =>
      rw [complement_of_isEmpty hempty]
      exact iff_of_true ⟨full, List.mem_singleton_self full, mem_full c⟩ (isEmpty_iff_forall.1 hempty c)
  | false =>
      obtain ⟨cell, hfilter⟩ := Partition.filter_of_isPartition (isPartition_cells hempty) c
      have hperm := (cells_perm hempty).filter (·.contains c)
      rw [hfilter, List.filter_cons] at hperm
      by_cases hc : c ∈ i
      · -- The one cell is the interval itself.
        rw [if_pos (contains_iff.2 hc)] at hperm
        have hnil : i.complement.filter (·.contains c) = [] := by
          simpa using hperm.length_eq
        refine iff_of_false ?_ (not_not.2 hc)
        rintro ⟨j, hj, hcj⟩
        exact List.filter_eq_nil_iff.1 hnil j hj (contains_iff.2 hcj)
      · rw [if_neg fun h => hc (contains_iff.1 h)] at hperm
        have hcell : cell ∈ i.complement.filter (·.contains c) := hperm.subset (List.mem_singleton_self cell)
        obtain ⟨hmem, hcontains⟩ := List.mem_filter.1 hcell
        exact iff_of_true ⟨cell, hmem, contains_iff.1 hcontains⟩ hc

/-- The intersection holds the symbols of both intervals; emptiness, fullness and inclusion are those of the sets of
symbols. The complement is made of non-empty intervals between symbols, ascending and apart, which hold just the symbols
that the interval does not; and with a non-empty interval it cuts the alphabet, so that each symbol lies in just one
of the cells. -/
theorem operations_are_exact (i j : Interval) :
    (∀ c, (i ∩ j).contains c = true ↔ i.contains c = true ∧ j.contains c = true) ∧
    (i.isEmpty = true ↔ ∀ c, i.contains c = false) ∧
    (i.isFull = true ↔ ∀ c, i.contains c = true) ∧
    (i.containsInterval j = true ↔ ∀ c, j.contains c = true → i.contains c = true) ∧
    (∀ k ∈ i.complement, k.isEmpty = false ∧ k.low.toNat.isValidChar ∧ k.high.toNat.isValidChar) ∧
    i.complement.Pairwise (·.high < ·.low) ∧
    (∀ c, (∃ k ∈ i.complement, k.contains c = true) ↔ i.contains c = false) ∧
    (i.isEmpty = false → ∃ cells, cells.Perm (i :: i.complement) ∧ Partition.IsPartition cells ∧
      ∀ c, ∃ cell, cells.filter (·.contains c) = [cell]) := by
  simp only [← Bool.not_eq_true, contains_iff]
  refine ⟨fun c => mem_inter, isEmpty_iff_forall, isFull_iff_forall, containsInterval_iff, fun k hk => ?_,
    i.ascending_complement, fun c => exists_mem_complement_iff, fun hempty => ?_⟩
  · exact ⟨Bool.not_eq_true _ ▸ nonempty_of_mem_complement hk, k.low.valid, k.high.valid⟩
  · have hempty : i.isEmpty = false := Bool.not_eq_true _ ▸ hempty
    exact ⟨i.cells, cells_perm hempty, isPartition_cells hempty,
      Partition.filter_of_isPartition (isPartition_cells hempty)⟩

/-- Some symbols, from the first one behind the surrogates on. -/
def behindSurrogates : Interval := ⟨'\uE000', '\uF000'⟩

/-- The complement steps over the surrogates, and an interval with inverted bounds lies in each interval. -/
theorem operations_of_behindSurrogates :
    behindSurrogates.complement = [⟨Symbol.first, '\uD7FF'⟩, ⟨'\uF001', Symbol.last⟩] ∧
      (Interval.mk Symbol.first '\uD7FF').isEmpty = false ∧
      behindSurrogates.containsInterval ⟨'\uF000', '\uE000'⟩ = true ∧
      behindSurrogates.isEmpty = false ∧
      ∃ cells, cells.Perm (behindSurrogates :: behindSurrogates.complement) ∧ Partition.IsPartition cells := by
  have hcomplement : behindSurrogates.complement = [⟨Symbol.first, '\uD7FF'⟩, ⟨'\uF001', Symbol.last⟩] := by
    decide +kernel
  have hempty : behindSurrogates.isEmpty = false := by decide +kernel
  obtain ⟨_, _, _, hcontains, hparts, _, _, hcells⟩ := operations_are_exact behindSurrogates ⟨'\uF000', '\uE000'⟩
  obtain ⟨cells, hperm, hpartition, _⟩ := hcells hempty
  have hinverted : ∀ c, (Interval.mk '\uF000' '\uE000').contains c = true → behindSurrogates.contains c = true :=
    fun c hc => absurd (contains_iff.1 hc) (isEmpty_iff_forall.1 (by decide +kernel) c)
  exact ⟨hcomplement, (hparts _ (by simp [hcomplement])).1, hcontains.2 hinverted, hempty, cells, hperm, hpartition⟩

end Interval

end RegexAlgebra
