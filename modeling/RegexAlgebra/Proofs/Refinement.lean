import RegexAlgebra.Proofs.Cells
import RegexAlgebra.Proofs.Intervals

/-! # The merge of two partitions is their common refinement

The merge compares the ends of the cells in front, and never looks back. Nothing is lost by that: what it gives is a
partition, each cell of which is where a cell on the left meets one on the right. A symbol where two cells meet lies in
some cell of the merge, and that cell can only come from these two.

A partition is told here without its gaps and bounds too, as a set of intervals in its order that has just one interval
for each symbol.
-/

namespace RegexAlgebra

namespace Partition

variable {low : Char} {cell : Interval} {cells is js left right : List Interval}

/-! ## Partitions as sets -/

/-- A set of non-empty intervals, listed in its order, just one of which holds a given symbol. -/
structure CutsAlphabet (cells : List Interval) : Prop where
  sorted : cells.Pairwise (compare · · = .lt)
  nonempty : ∀ cell ∈ cells, cell.isEmpty = false
  unique : ∀ c, ∃! cell, cell ∈ cells ∧ c ∈ cell

theorem compare_eq_lt_iff {i j : Interval} :
    compare i j = .lt ↔ i.low < j.low ∨ i.low = j.low ∧ i.high < j.high := by
  show (compare i.low j.low).then (compare i.high j.high) = .lt ↔ _
  rw [Ordering.then_eq_lt]
  exact or_congr compareOfLessAndEq_eq_lt (and_congr Std.compare_eq_iff_eq compareOfLessAndEq_eq_lt)

/-- The cell that holds the first symbol comes first, and the others lie behind it. -/
private theorem tilesFrom_of_unique (hsorted : cells.Pairwise (compare · · = .lt))
    (hnonempty : ∀ cell ∈ cells, cell.isEmpty = false) (hlow : ∀ cell ∈ cells, low ≤ cell.low)
    (hunique : ∀ c, low ≤ c → ∃! cell, cell ∈ cells ∧ c ∈ cell) : TilesFrom low cells := by
  induction cells generalizing low with
  | nil =>
      obtain ⟨cell, ⟨hmem, _⟩, _⟩ := hunique low (Char.le_refl low)
      cases hmem
  | cons cell cells ih =>
      obtain ⟨hfirst, hsorted⟩ := List.pairwise_cons.1 hsorted
      have hle : cell.low ≤ cell.high := (Interval.low_mem (hnonempty cell List.mem_cons_self)).2
      have hcell : cell.low = low := by
        obtain ⟨first, ⟨hmem, hheld⟩, _⟩ := hunique low (Char.le_refl low)
        refine Char.le_antisymm ?_ (hlow cell List.mem_cons_self)
        rcases List.mem_cons.1 hmem with rfl | hmem
        · exact hheld.1
        · rcases compare_eq_lt_iff.1 (hfirst first hmem) with hlt | ⟨heq, _⟩
          · exact Char.le_trans (Std.le_of_lt hlt) hheld.1
          · exact heq ▸ hheld.1
      have hbehind : ∀ next ∈ cells, cell.high < next.low := by
        intro next hnext
        by_contra hnot
        have hheld : next.low ∈ cell := ⟨hcell ▸ hlow next (List.mem_cons_of_mem cell hnext), Char.not_lt.1 hnot⟩
        have hself : next.low ∈ next := Interval.low_mem (hnonempty next (List.mem_cons_of_mem cell hnext))
        have heq : cell = next := (hunique next.low (hcell ▸ hheld.1)).unique ⟨List.mem_cons_self, hheld⟩
          ⟨List.mem_cons_of_mem cell hnext, hself⟩
        have hlt := hfirst next hnext
        rw [heq, compare_eq_lt_iff] at hlt
        rcases hlt with hlt | ⟨_, hlt⟩
        · exact Char.lt_irrefl _ hlt
        · exact Char.lt_irrefl _ hlt
      refine tilesFrom_cons.2 ⟨hcell, hle, ?_⟩
      unfold TilesAfter
      split
      · rename_i low' hnext
        refine ih hsorted (fun next hmem => hnonempty next (List.mem_cons_of_mem cell hmem))
          (fun next hmem => (Symbol.lt_iff_le_of_next? hnext).1 (hbehind next hmem)) fun c hc => ?_
        have hlt : cell.high < c := (Symbol.lt_iff_le_of_next? hnext).2 hc
        obtain ⟨other, ⟨hmem, hheld⟩, hother⟩ := hunique c (hcell ▸ Char.le_trans hle (Std.le_of_lt hlt))
        rcases List.mem_cons.1 hmem with rfl | hmem
        · exact absurd hheld.2 (Char.not_le.2 hlt)
        · exact ⟨other, ⟨hmem, hheld⟩, fun y hy => hother y ⟨List.mem_cons_of_mem cell hy.1, hy.2⟩⟩
      · rename_i hnone
        rw [List.eq_nil_iff_forall_not_mem]
        intro next hnext
        have hlt := hbehind next hnext
        rw [Symbol.next?_eq_none_iff.1 hnone] at hlt
        exact absurd (Symbol.le_last next.low) (Char.not_le.2 hlt)

theorem isPartition_iff : IsPartition cells ↔ CutsAlphabet cells := by
  constructor
  · intro h
    have hbounds : ∀ cell ∈ cells, cell.low ≤ cell.high := fun cell hcell => (le_low_of_tilesFrom h hcell).2
    refine ⟨?_, fun cell hcell => ?_, existsUnique_cell h⟩
    · refine (ascending_of_tilesFrom h).imp_of_mem fun {i j} hi _ hlt => ?_
      exact compare_eq_lt_iff.2 (Or.inl (Std.lt_of_le_of_lt (hbounds i hi) hlt))
    · rw [← Bool.not_eq_true, Interval.isEmpty_iff]
      exact Char.not_lt.2 (hbounds cell hcell)
  · intro h
    exact tilesFrom_of_unique h.sorted h.nonempty (fun cell _ => Symbol.first_le cell.low) fun c _ => h.unique c

/-! ## Cells of the merge -/

theorem mem_pairwise :
    cell ∈ pairwise left right ↔ (∃ l ∈ left, ∃ r ∈ right, cell = l ∩ r) ∧ cell.isEmpty = false := by
  simp only [pairwise, List.mem_flatMap, List.mem_filter, List.mem_map, Bool.not_eq_true']
  constructor
  · intro hparts
    obtain ⟨l, hl, ⟨r, hr, rfl⟩, hempty⟩ := hparts
    exact ⟨⟨l, hl, r, hr, rfl⟩, hempty⟩
  · intro hparts
    obtain ⟨⟨l, hl, r, hr, rfl⟩, hempty⟩ := hparts
    exact ⟨l, hl, ⟨r, hr, rfl⟩, hempty⟩

theorem isPartition_refine (hl : IsPartition left) (hr : IsPartition right) : IsPartition (refine left right) :=
  tilesFrom_refine hl hr

/-- Where two cells meet, the merge has a cell, and it can only come from these two. -/
theorem mem_refine_iff (hl : IsPartition left) (hr : IsPartition right) :
    cell ∈ refine left right ↔ (∃ l ∈ left, ∃ r ∈ right, cell = l ∩ r) ∧ cell.isEmpty = false := by
  have hrefine := isPartition_refine hl hr
  constructor
  · exact fun hcell => ⟨mem_refine hcell, (isPartition_iff.1 hrefine).nonempty cell hcell⟩
  · intro hparts
    obtain ⟨⟨l, hleft, r, hright, rfl⟩, hempty⟩ := hparts
    obtain ⟨hlow, hlow'⟩ := Interval.mem_inter.1 (Interval.low_mem hempty)
    obtain ⟨other, hother, hheld⟩ := exists_mem_of_isPartition hrefine (l ∩ r).low
    obtain ⟨l', hleft', r', hright', rfl⟩ := mem_refine hother
    obtain ⟨hheld, hheld'⟩ := Interval.mem_inter.1 hheld
    rw [(existsUnique_cell hl _).unique ⟨hleft, hlow⟩ ⟨hleft', hheld⟩,
      (existsUnique_cell hr _).unique ⟨hright, hlow'⟩ ⟨hright', hheld'⟩]
    exact hother

/-! ## Lists in order -/

/-- Cells that are apart come in one order only. -/
theorem eq_of_ascending (his : is.Pairwise (·.high < ·.low)) (hjs : js.Pairwise (·.high < ·.low))
    (hnonempty : ∀ i ∈ is, i.isEmpty = false) (hmem : ∀ i, i ∈ is ↔ i ∈ js) : is = js := by
  have hbounds : ∀ i ∈ is, i.low ≤ i.high := fun i hi => (Interval.low_mem (hnonempty i hi)).2
  -- Two cells do not lie behind one another.
  have hasymm : ∀ i ∈ is, ∀ j ∈ is, i.high < j.low → ¬ j.high < i.low := by
    intro i hi j hj hlt hlt'
    have hle := hbounds i hi
    have hle' := hbounds j hj
    simp only [Symbol.lt_iff_position_lt, Symbol.le_iff_position_le] at hlt hlt' hle hle'
    omega
  have hnodup : ∀ ks : List Interval, (∀ k ∈ ks, k ∈ is) → ks.Pairwise (·.high < ·.low) → ks.Nodup :=
    fun ks hks h => h.imp_of_mem fun hi hj hlt heq => hasymm _ (hks _ hi) _ (hks _ hj) hlt (heq ▸ hlt)
  have hperm : is.Perm js :=
    (List.perm_ext_iff_of_nodup (hnodup is (fun _ => id) his) (hnodup js (fun j => (hmem j).2) hjs)).2 hmem
  exact hperm.eq_of_pairwise (fun i j hi hj hlt hlt' => absurd hlt' (hasymm i hi j ((hmem j).2 hj) hlt)) his hjs

/-- In the order of the left cells, and for each of them in that of the right ones, the intersections ascend. -/
theorem ascending_pairwise (hl : IsPartition left) (hr : IsPartition right) :
    (pairwise left right).Pairwise (·.high < ·.low) := by
  unfold pairwise
  rw [List.pairwise_flatMap]
  constructor
  · intro l _
    refine List.Pairwise.filter _ (List.Pairwise.map _ (fun r r' hlt => ?_) (ascending_of_tilesFrom hr))
    exact Std.lt_of_le_of_lt (Interval.inter_high_le_right l r)
      (Std.lt_of_lt_of_le hlt (Interval.low_le_inter_right l r'))
  · refine (ascending_of_tilesFrom hl).imp fun {l l'} hlt i hi j hj => ?_
    obtain ⟨r, _, rfl⟩ := List.mem_map.1 (List.mem_filter.1 hi).1
    obtain ⟨r', _, rfl⟩ := List.mem_map.1 (List.mem_filter.1 hj).1
    exact Std.lt_of_le_of_lt (Interval.inter_high_le_left l r)
      (Std.lt_of_lt_of_le hlt (Interval.low_le_inter_left l' r'))

theorem refine_eq_pairwise (hl : IsPartition left) (hr : IsPartition right) :
    refine left right = pairwise left right := by
  have hrefine := isPartition_refine hl hr
  refine eq_of_ascending (ascending_of_tilesFrom hrefine) (ascending_pairwise hl hr)
    (isPartition_iff.1 hrefine).nonempty fun cell => ?_
  rw [mem_refine_iff hl hr, mem_pairwise]

theorem refine_comm (hl : IsPartition left) (hr : IsPartition right) : refine left right = refine right left := by
  have hrefine := isPartition_refine hl hr
  refine eq_of_ascending (ascending_of_tilesFrom hrefine) (ascending_of_tilesFrom (isPartition_refine hr hl))
    (isPartition_iff.1 hrefine).nonempty fun cell => ?_
  rw [mem_refine_iff hl hr, mem_refine_iff hr hl]
  refine and_congr_left fun _ => ?_
  constructor
  · rintro ⟨l, hleft, r, hright, rfl⟩
    exact ⟨r, hright, l, hleft, Interval.inter_comm l r⟩
  · rintro ⟨r, hright, l, hleft, rfl⟩
    exact ⟨l, hleft, r, hright, Interval.inter_comm r l⟩

/-- For any two sets of intervals that partition the alphabet, the merge has just the intersections of a cell on the
left with a cell on the right that are not empty, in the order in which all pairs of cells come to them. It is a
partition again, and the same one if the sides are exchanged. -/
theorem merge_is_common_refinement (hl : CutsAlphabet left) (hr : CutsAlphabet right) :
    (∀ cell, cell ∈ refine left right ↔ (∃ l ∈ left, ∃ r ∈ right, cell = l ∩ r) ∧ cell.isEmpty = false) ∧
    refine left right = pairwise left right ∧
    CutsAlphabet (refine left right) ∧
    IsPartition (refine left right) ∧
    refine left right = refine right left := by
  have hleft := isPartition_iff.2 hl
  have hright := isPartition_iff.2 hr
  have hrefine := isPartition_refine hleft hright
  exact ⟨fun _ => mem_refine_iff hleft hright, refine_eq_pairwise hleft hright, isPartition_iff.1 hrefine, hrefine,
    refine_comm hleft hright⟩

/-- The merge steps over the surrogates: the symbols in front of them end a cell on the right, and the letters cut
those. -/
theorem merge_across_surrogates :
    CutsAlphabet (Interval.mk 'a' 'z').cells ∧ CutsAlphabet Interval.behindSurrogates.cells ∧
      refine (Interval.mk 'a' 'z').cells Interval.behindSurrogates.cells =
        [⟨Symbol.first, '`'⟩, ⟨'a', 'z'⟩, ⟨'{', '\uD7FF'⟩, ⟨'\uE000', '\uF000'⟩, ⟨'\uF001', Symbol.last⟩] ∧
      refine Interval.behindSurrogates.cells (Interval.mk 'a' 'z').cells =
        refine (Interval.mk 'a' 'z').cells Interval.behindSurrogates.cells := by
  have hletters := isPartition_iff.1 (Interval.isPartition_cells (i := ⟨'a', 'z'⟩) (by decide))
  have hbehind := isPartition_iff.1 (Interval.isPartition_cells (i := .behindSurrogates) (by decide +kernel))
  obtain ⟨_, hpairs, _, _, hcomm⟩ := merge_is_common_refinement hletters hbehind
  have hcells : pairwise (Interval.mk 'a' 'z').cells Interval.behindSurrogates.cells =
      [⟨Symbol.first, '`'⟩, ⟨'a', 'z'⟩, ⟨'{', '\uD7FF'⟩, ⟨'\uE000', '\uF000'⟩, ⟨'\uF001', Symbol.last⟩] := by
    decide +kernel
  exact ⟨hletters, hbehind, hpairs.trans hcells, hcomm.symm⟩

end Partition

end RegexAlgebra
