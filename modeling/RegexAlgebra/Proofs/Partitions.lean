import RegexAlgebra.Expr.Classes
import RegexAlgebra.Proofs.Meaning

/-! # Partitions of the alphabet

The merge of two partitions is a partition, and each of its cells lies in one cell of either side. So the character
classes of an expression are a partition, and each symbol lies in a class.
-/

namespace RegexAlgebra

namespace Partition

variable {low high c : Char} {cell l r : Interval} {cells ls rs : List Interval}

/-! ## Tilings -/

/-- The cells tile the symbols behind `high`; there are none if `high` is the last symbol. -/
def TilesAfter (high : Char) (cells : List Interval) : Prop :=
  match Symbol.next? high with
  | some low => TilesFrom low cells
  | none => cells = []

theorem tilesFrom_cons :
    TilesFrom low (cell :: cells) ↔ cell.low = low ∧ cell.low ≤ cell.high ∧ TilesAfter cell.high cells := by
  unfold TilesAfter
  cases cells with
  | nil =>
      rw [TilesFrom]
      cases hnext : Symbol.next? cell.high with
      | none => simp [Symbol.next?_eq_none_iff.1 hnext]
      | some low' =>
          have hne : cell.high ≠ Symbol.last := by
            intro heq
            rw [Symbol.next?_eq_none_iff.2 heq] at hnext
            cases hnext
          simp [TilesFrom, hne]
  | cons next cells =>
      rw [TilesFrom]
      cases hnext : Symbol.next? cell.high <;> simp

theorem tilesAfter_of_next (hnext : Symbol.next? high = some low) :
    TilesAfter high cells ↔ TilesFrom low cells := by
  unfold TilesAfter
  rw [hnext]

/-- A tiling starts with a cell whose low bound is the first symbol to be covered. -/
theorem exists_cons_of_tilesFrom (h : TilesFrom low cells) :
    ∃ high rest, cells = ⟨low, high⟩ :: rest ∧ low ≤ high ∧ TilesAfter high rest := by
  cases cells with
  | nil => exact h.elim
  | cons cell cells =>
      obtain ⟨hlow, hle, hrest⟩ := tilesFrom_cons.1 h
      subst hlow
      exact ⟨cell.high, cells, rfl, hle, hrest⟩

/-- The cells of a tiling are not empty, and lie above its start. -/
theorem le_low_of_tilesFrom (h : TilesFrom low cells) (hcell : cell ∈ cells) :
    low ≤ cell.low ∧ cell.low ≤ cell.high := by
  induction cells generalizing low with
  | nil => exact h.elim
  | cons next cells ih =>
      obtain ⟨hlow, hle, hrest⟩ := tilesFrom_cons.1 h
      subst hlow
      rcases List.mem_cons.1 hcell with rfl | hcell
      · exact ⟨Char.le_refl _, hle⟩
      · unfold TilesAfter at hrest
        split at hrest
        · rename_i low' hnext
          have hlt : next.high < low' := (Symbol.lt_iff_le_of_next? hnext).2 (Char.le_refl low')
          obtain ⟨hlow, hhigh⟩ := ih hrest hcell
          simp only [Symbol.le_iff_position_le, Symbol.lt_iff_position_lt] at hle hlt hlow hhigh ⊢
          omega
        · rw [hrest] at hcell
          cases hcell

theorem lt_low_of_tilesAfter (h : TilesAfter high cells) (hcell : cell ∈ cells) : high < cell.low := by
  unfold TilesAfter at h
  split at h
  · rename_i low' hnext
    exact (Symbol.lt_iff_le_of_next? hnext).2 (le_low_of_tilesFrom h hcell).1
  · rw [h] at hcell
    cases hcell

private theorem filter_of_tilesFrom (h : TilesFrom low cells) (hc : low ≤ c) :
    ∃ cell, cells.filter (·.contains c) = [cell] := by
  induction cells generalizing low with
  | nil => exact h.elim
  | cons cell cells ih =>
      obtain ⟨hlow, _, hrest⟩ := tilesFrom_cons.1 h
      by_cases hhigh : c ≤ cell.high
      · have hnil : cells.filter (·.contains c) = [] := by
          rw [List.filter_eq_nil_iff]
          intro cell' hcell' hcontains
          have hlt := lt_low_of_tilesAfter hrest hcell'
          have hle : cell'.low ≤ c := (Interval.contains_iff.1 hcontains).1
          exact absurd (Char.le_trans hle hhigh) (Char.not_le.2 hlt)
        have hcontains : cell.contains c = true := Interval.contains_iff.2 ⟨hlow ▸ hc, hhigh⟩
        exact ⟨cell, by rw [List.filter_cons, if_pos hcontains, hnil]⟩
      · have hcontains : ¬ cell.contains c = true := fun h => hhigh (Interval.contains_iff.1 h).2
        rw [List.filter_cons, if_neg hcontains]
        unfold TilesAfter at hrest
        split at hrest
        · rename_i low' hnext
          exact ih hrest ((Symbol.lt_iff_le_of_next? hnext).1 (Char.not_le.1 hhigh))
        · rename_i hnext
          rw [Symbol.next?_eq_none_iff.1 hnext] at hhigh
          exact absurd (Symbol.le_last c) hhigh

/-- Just one cell of a partition holds a symbol. -/
theorem filter_of_isPartition (h : IsPartition cells) (c : Char) : ∃ cell, cells.filter (·.contains c) = [cell] :=
  filter_of_tilesFrom h (Symbol.first_le c)

theorem exists_mem_of_isPartition (h : IsPartition cells) (c : Char) : ∃ cell ∈ cells, c ∈ cell := by
  obtain ⟨cell, hfilter⟩ := filter_of_isPartition h c
  have hmem : cell ∈ cells.filter (·.contains c) := hfilter ▸ List.mem_singleton_self cell
  obtain ⟨hcell, hc⟩ := List.mem_filter.1 hmem
  exact ⟨cell, hcell, Interval.contains_iff.1 hc⟩

/-! ## Refinements -/

/-- A cell of a merge is where the first cells meet, or one of what remains once a first cell is done with. -/
private theorem mem_refine_cons (h : cell ∈ refine (l :: ls) (r :: rs)) :
    cell = l ∩ r ∨ cell ∈ refine ls (r :: rs) ∨ cell ∈ refine (l :: ls) rs ∨ cell ∈ refine ls rs := by
  have hcell : ∀ {rest}, (cell ∈ if (l ∩ r).isEmpty = true then rest else l ∩ r :: rest) →
      cell = l ∩ r ∨ cell ∈ rest := by
    intro rest hmem
    split at hmem
    · exact Or.inr hmem
    · exact List.mem_cons.1 hmem
  rw [refine] at h
  rcases hcell h with heq | hrest
  · exact Or.inl heq
  · refine Or.inr ?_
    split at hrest
    · exact Or.inl hrest
    · exact Or.inr (Or.inl hrest)
    · exact Or.inr (Or.inr hrest)

theorem mem_refine (h : cell ∈ refine ls rs) : ∃ l ∈ ls, ∃ r ∈ rs, cell = l ∩ r := by
  induction hlength : ls.length + rs.length using Nat.strongRecOn generalizing ls rs with
  | ind n ih =>
      cases ls with
      | nil => simp [refine] at h
      | cons l ls =>
          cases rs with
          | nil => simp [refine] at h
          | cons r rs =>
              simp only [List.length_cons] at hlength
              have hrest : ∀ {ls' rs'}, ls' ⊆ l :: ls → rs' ⊆ r :: rs → ls'.length + rs'.length < n →
                  cell ∈ refine ls' rs' → ∃ l' ∈ l :: ls, ∃ r' ∈ r :: rs, cell = l' ∩ r' := by
                intro ls' rs' hls hrs hlt hmem
                obtain ⟨l', hl, r', hr, heq⟩ := ih _ hlt hmem rfl
                exact ⟨l', hls hl, r', hrs hr, heq⟩
              have htail : ls ⊆ l :: ls := List.subset_cons_self l ls
              have htail' : rs ⊆ r :: rs := List.subset_cons_self r rs
              rcases mem_refine_cons h with heq | hmem | hmem | hmem
              · exact ⟨l, List.mem_cons_self, r, List.mem_cons_self, heq⟩
              · exact hrest htail (List.Subset.refl _) (by simp; omega) hmem
              · exact hrest (List.Subset.refl _) htail' (by simp; omega) hmem
              · exact hrest htail htail' (by omega) hmem

theorem isEmpty_inter_eq_false (hl : low ∈ l) (hr : low ∈ r) : (l ∩ r).isEmpty = false := by
  have hboth : low ∈ l ∩ r := Interval.mem_inter.2 ⟨hl, hr⟩
  rw [← Bool.not_eq_true, Interval.isEmpty_iff]
  simp only [Interval.mem_iff, Symbol.le_iff_position_le, Symbol.lt_iff_position_lt] at hboth ⊢
  omega

private theorem low_inter (hl : low ∈ l) (hr : low ∈ r) (hlow : l.low = low ∨ r.low = low) : (l ∩ r).low = low := by
  show (if l.low ≤ r.low then r.low else l.low) = low
  by_cases hle : l.low ≤ r.low
  · rw [if_pos hle]
    rcases hlow with h | h
    · exact Char.le_antisymm hr.1 (h ▸ hle)
    · exact h
  · rw [if_neg hle]
    rcases hlow with h | h
    · exact h
    · exact absurd (h ▸ hl.1) hle

private theorem high_inter_of_le (h : l.high ≤ r.high) : (l ∩ r).high = l.high := if_pos h

private theorem high_inter_of_lt (h : r.high < l.high) : (l ∩ r).high = r.high := if_neg (Char.not_le.2 h)

/-- What lies behind a cell that ends before another one starts with a cell that meets the other one. -/
private theorem exists_cons_of_tilesAfter (hrs : TilesAfter r.high rs) (hr : low ∈ r) (hl : low ∈ l)
    (hlt : r.high < l.high) : ∃ low' high rest, Symbol.next? r.high = some low' ∧ rs = ⟨low', high⟩ :: rest ∧
      low' ≤ high ∧ TilesAfter high rest ∧ low' ∈ l := by
  cases hnext : Symbol.next? r.high with
  | none =>
      rw [Symbol.next?_eq_none_iff.1 hnext] at hlt
      exact absurd (Symbol.le_last l.high) (Char.not_le.2 hlt)
  | some low' =>
      obtain ⟨high, rest, heq, hle, hrest⟩ := exists_cons_of_tilesFrom ((tilesAfter_of_next hnext).1 hrs)
      refine ⟨low', high, rest, rfl, heq, hle, hrest, ?_⟩
      rw [Symbol.next?_eq_some_iff] at hnext
      simp only [Interval.mem_iff, Symbol.le_iff_position_le, Symbol.lt_iff_position_lt] at hl hr hlt ⊢
      omega

/-- The merge goes on from the symbol behind the end of the cell that ends first. -/
private theorem tilesFrom_refine_cons (hl : low ∈ l) (hr : low ∈ r) (hlow : l.low = low ∨ r.low = low)
    (hls : TilesAfter l.high ls) (hrs : TilesAfter r.high rs) : TilesFrom low (refine (l :: ls) (r :: rs)) := by
  induction hlength : ls.length + rs.length using Nat.strongRecOn generalizing low l r ls rs with
  | ind n ih =>
      have hempty := isEmpty_inter_eq_false hl hr
      have hle : (l ∩ r).low ≤ (l ∩ r).high := (Interval.low_mem hempty).2
      rw [refine, if_neg (by simp [hempty]), tilesFrom_cons]
      refine ⟨low_inter hl hr hlow, hle, ?_⟩
      split
      · rename_i hlt
        have hlt : l.high < r.high := compareOfLessAndEq_eq_lt.1 hlt
        obtain ⟨low', high, rest, hnext, heq, hle, hrest, hmem⟩ := exists_cons_of_tilesAfter hls hl hr hlt
        subst heq
        rw [high_inter_of_le (Std.le_of_lt hlt), tilesAfter_of_next hnext]
        rw [List.length_cons] at hlength
        exact ih _ (by omega) ⟨Char.le_refl low', hle⟩ hmem (Or.inl rfl) hrest hrs rfl
      · rename_i hgt
        have hcompare : compare r.high l.high = .lt := Std.OrientedCmp.lt_of_gt hgt
        have hlt : r.high < l.high := compareOfLessAndEq_eq_lt.1 hcompare
        obtain ⟨low', high, rest, hnext, heq, hle, hrest, hmem⟩ := exists_cons_of_tilesAfter hrs hr hl hlt
        subst heq
        rw [high_inter_of_lt hlt, tilesAfter_of_next hnext]
        rw [List.length_cons] at hlength
        exact ih _ (by omega) hmem ⟨Char.le_refl low', hle⟩ (Or.inr rfl) hls hrest rfl
      · rename_i heq
        have heq : l.high = r.high := Std.compare_eq_iff_eq.1 heq
        rw [high_inter_of_le (heq ▸ Char.le_refl _)]
        cases hnext : Symbol.next? l.high with
        | none =>
            unfold TilesAfter at hls hrs ⊢
            rw [hnext] at hls ⊢
            subst hls
            simp [refine]
        | some low' =>
            rw [tilesAfter_of_next hnext] at hls ⊢
            rw [← heq, tilesAfter_of_next hnext] at hrs
            obtain ⟨high, restl, heql, hle, hrestl⟩ := exists_cons_of_tilesFrom hls
            obtain ⟨high', restr, heqr, hle', hrestr⟩ := exists_cons_of_tilesFrom hrs
            subst heql heqr
            simp only [List.length_cons] at hlength
            exact ih _ (by omega) ⟨Char.le_refl low', hle⟩ ⟨Char.le_refl low', hle'⟩ (Or.inl rfl) hrestl hrestr rfl

theorem tilesFrom_refine (hl : TilesFrom low ls) (hr : TilesFrom low rs) : TilesFrom low (refine ls rs) := by
  obtain ⟨high, ls, rfl, hle, hls⟩ := exists_cons_of_tilesFrom hl
  obtain ⟨high', rs, rfl, hle', hrs⟩ := exists_cons_of_tilesFrom hr
  exact tilesFrom_refine_cons ⟨Char.le_refl low, hle⟩ ⟨Char.le_refl low, hle'⟩ (Or.inl rfl) hls hrs

end Partition

/-! ## Classes -/

theorem Partition.tilesAfter_last : TilesAfter Symbol.last [] := by
  unfold TilesAfter
  rw [Symbol.next?_eq_none_iff.2 rfl]

theorem Partition.isPartition_trivial : IsPartition trivial :=
  tilesFrom_cons.2 ⟨rfl, Symbol.first_le _, tilesAfter_last⟩

/-- A non-empty interval cuts the alphabet. -/
theorem Interval.isPartition_cells {i : Interval} (h : i.isEmpty = false) : Partition.IsPartition i.cells := by
  have hle : i.low ≤ i.high := (low_mem h).2
  have habove : Partition.TilesAfter i.high i.above := by
    unfold Partition.TilesAfter above
    cases hnext : Symbol.next? i.high with
    | none => rfl
    | some low => exact Partition.tilesFrom_cons.2 ⟨rfl, Symbol.le_last low, Partition.tilesAfter_last⟩
  have hself : Partition.TilesFrom i.low (i :: i.above) := Partition.tilesFrom_cons.2 ⟨rfl, hle, habove⟩
  unfold Partition.IsPartition cells below
  cases hprevious : Symbol.previous? i.low with
  | none => exact Symbol.previous?_eq_none_iff.1 hprevious ▸ hself
  | some high =>
      have hnext := Symbol.previous?_eq_some_iff_next?.1 hprevious
      exact Partition.tilesFrom_cons.2
        ⟨rfl, Symbol.first_le high, (Partition.tilesAfter_of_next hnext).2 hself⟩

namespace Pool

variable {pool later : Pool} {e : Expr} {cells : List Interval}

/-- The classes of two operands, refined. -/
def bothClasses (pool : Pool) (l r : Expr) : Except Error (List Interval) := do
  let ls ← pool.classes l
  let rs ← pool.classes r
  return Partition.refine ls rs

/-- The classes of a node, by those of its operands. -/
def nodeClasses (pool : Pool) : Node → Except Error (List Interval)
  | .empty => .ok Partition.trivial
  | .epsilon => .ok Partition.trivial
  | .range interval => .ok interval.cells
  | .startAnchor => .error (.anchorReached .classes)
  | .endAnchor => .error (.anchorReached .classes)
  | .unary _ sub => pool.classes sub
  | .binary .concat left right => do
    if ← pool.isNullable left then pool.bothClasses left right else pool.classes left
  | .binary _ left right => pool.bothClasses left right

theorem classes_eq (pool : Pool) (e : Expr) : pool.classes e = pool.nodeClasses (pool.node e) := by
  rw [classes]
  split
  case h_8 op l r hop hn =>
      rw [hn]
      cases op with
      | union => rfl
      | intersect => rfl
      | concat => exact (hop rfl).elim
  all_goals
    rename_i hn
    rw [hn]
    rfl

theorem bothClasses_eq_ok_iff {l r : Expr} :
    pool.bothClasses l r = .ok cells ↔
      ∃ ls rs, pool.classes l = .ok ls ∧ pool.classes r = .ok rs ∧ Partition.refine ls rs = cells := by
  unfold bothClasses
  cases hl : pool.classes l with
  | error error => simp [bind, Except.bind]
  | ok ls =>
      cases hr : pool.classes r with
      | error error => simp [bind, Except.bind]
      | ok rs => simp [bind, Except.bind, pure, Except.pure]

/-- The right operand of a concatenation takes part in the classes only if the left one is nullable. -/
theorem nodeClasses_binary {op : BinaryOp} {l r : Expr} (h : pool.nodeClasses (.binary op l r) = .ok cells) :
    (op = .concat ∧ pool.isNullable l = .ok false ∧ pool.classes l = .ok cells) ∨
      ((op = .concat → pool.isNullable l = .ok true) ∧ pool.bothClasses l r = .ok cells) := by
  cases op with
  | union => exact Or.inr ⟨by simp, h⟩
  | intersect => exact Or.inr ⟨by simp, h⟩
  | concat =>
      cases hnullable : pool.isNullable l with
      | error error =>
          rw [nodeClasses, hnullable] at h
          cases h
      | ok nullable =>
          rw [nodeClasses, hnullable] at h
          cases nullable with
          | true => exact Or.inr ⟨fun _ => rfl, h⟩
          | false => exact Or.inl ⟨rfl, rfl, h⟩

theorem isPartition_of_classes (h : pool.Sound) (he : pool.Has e) (hclasses : pool.classes e = .ok cells) :
    Partition.IsPartition cells := by
  induction e using operandInduction pool generalizing cells with
  | step e ih =>
      rw [classes_eq] at hclasses
      cases hn : pool.node e with
      | startAnchor =>
          rw [hn] at hclasses
          cases hclasses
      | endAnchor =>
          rw [hn] at hclasses
          cases hclasses
      | empty =>
          rw [hn] at hclasses
          cases hclasses
          exact Partition.isPartition_trivial
      | epsilon =>
          rw [hn] at hclasses
          cases hclasses
          exact Partition.isPartition_trivial
      | range interval =>
          rw [hn] at hclasses
          cases hclasses
          exact Interval.isPartition_cells (h.ranges he hn)
      | unary op s =>
          have hs : s ∈ (pool.node e).operands := by simp [hn, Node.operands]
          rw [hn] at hclasses
          exact ih s hs (he.operand hs) hclasses
      | binary op l r =>
          have hl : l ∈ (pool.node e).operands := by simp [hn, Node.operands]
          have hr : r ∈ (pool.node e).operands := by simp [hn, Node.operands]
          rw [hn] at hclasses
          rcases nodeClasses_binary hclasses with ⟨_, _, hclasses⟩ | ⟨_, hclasses⟩
          · exact ih l hl (he.operand hl) hclasses
          · obtain ⟨ls, rs, hls, hrs, rfl⟩ := bothClasses_eq_ok_iff.1 hclasses
            exact Partition.tilesFrom_refine (ih l hl (he.operand hl) hls) (ih r hr (he.operand hr) hrs)

end Pool

end RegexAlgebra
