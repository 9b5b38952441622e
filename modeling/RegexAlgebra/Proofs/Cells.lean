import RegexAlgebra.Proofs.Moves
import RegexAlgebra.Proofs.Termination

/-! # Derivatives are constant on cells

The character classes of an expression without anchors are a partition of the alphabet, and the derivatives by two
symbols of one class are one handle, whatever is asked of the pool between them. So the edges of each state of an
automaton are such a partition, and one edge of a state holds a given symbol.
-/

namespace RegexAlgebra

open Pool

variable {pool middle : Pool} {e : Expr} {c d : Char} {cells : List Interval} {cell : Interval}

/-- Each symbol lies in just one cell of a partition. -/
theorem Partition.existsUnique_cell (h : IsPartition cells) (c : Char) : ∃! cell, cell ∈ cells ∧ c ∈ cell := by
  obtain ⟨cell, hfilter⟩ := filter_of_isPartition h c
  have hmem : ∀ other, other ∈ cells ∧ c ∈ other ↔ other = cell := by
    intro other
    rw [← List.mem_singleton, ← hfilter, List.mem_filter, Interval.contains_iff]
  exact ⟨cell, (hmem cell).2 rfl, fun other hother => (hmem other).1 hother⟩

namespace Expr

/-- The derivative by one symbol of a class is that by another one, taken any time later. -/
theorem derivative_of_cell (h : pool.Sound) (he : pool.Has e) (hfree : pool.AnchorFree e)
    (hclasses : pool.classes e = .ok cells) (hcell : cell ∈ cells) (hc : c ∈ cell) (hd : d ∈ cell)
    (hgrows : pool.Grows middle) :
    ∃ x next, (e.derivative c).outcome middle = (.ok x, next) ∧
      ∀ later, next.Later later → (e.derivative d).outcome later = (.ok x, later) := by
  have hends := (e.derivative_ends h he c hgrows).mono_fails fun _ hnot => hnot hfree
  obtain ⟨x, next, hrun, hnext, _⟩ := hends.returns
  have halike : pool.Alike e c d := Or.inr ⟨cells, cell, hclasses, hcell, hc, hd⟩
  have hagain := (derivative_repeats h he halike hgrows).of_ok hrun
  have hsound : next.Sound := (hgrows.trans hnext).sound h
  exact ⟨x, next, Session.outcome_of_ok hrun, fun later hlater =>
    Session.outcome_of_ok (hagain later (hlater.remembers hsound))⟩

/-- On every pool with a history, the character classes of an expression without anchors are a partition of the
alphabet, the same at all times. The derivative by any symbol of a class can be taken at any time, and that by any other
symbol of the class, taken any time after it, is the same handle.

The edges of each state of every automaton that is built are a partition of the alphabet. Just one of them holds a given
symbol, and it leads where the symbol moves the state. -/
theorem derivative_constant_on_cells (h : pool.Reachable) :
    (∀ e, pool.Has e → pool.AnchorFree e →
      ∃ cells, (∀ later, pool.Later later → later.classes e = .ok cells) ∧ Partition.IsPartition cells ∧
        (∀ c, ∃! cell, cell ∈ cells ∧ c ∈ cell) ∧
        ∀ cell ∈ cells, ∀ c ∈ cell, ∀ d ∈ cell, ∀ middle, pool.Later middle →
          ∃ x next, (e.derivative c).outcome middle = (.ok x, next) ∧
            ∀ later, next.Later later → (e.derivative d).outcome later = (.ok x, later)) ∧
    ∀ e settings a built, pool.Has e → (e.automaton settings).outcome pool = (.ok a, built) →
      ∀ s ∈ a.states, ∃ edges, a.edges s = .ok edges ∧ Partition.IsPartition (edges.map (·.interval)) ∧
        ∀ c, ∃ edge, edges.filter (·.interval.contains c) = [edge] ∧ a.move s c = .ok edge.target := by
  constructor
  · intro e he hfree
    obtain ⟨cells, hclasses⟩ := classes_of_anchorFree hfree
    have hpartition := isPartition_of_classes h.sound he hclasses
    refine ⟨cells, fun later hlater => ?_, hpartition, Partition.existsUnique_cell hpartition, ?_⟩
    · rw [(hlater.remembers h.sound).classes_eq he, hclasses]
    · intro cell hcell c hc d hd middle hmiddle
      exact derivative_of_cell h.sound he hfree hclasses hcell hc hd (hmiddle.grows h.sound)
  · intro e settings a built he hrun s hs
    have hbuilt : a.IsBuilt := ⟨pool, built, e, settings, h, he, hrun⟩
    obtain ⟨edges, hleaves⟩ := hbuilt.isComplete.leaves s hs
    refine ⟨edges, hleaves.edges_eq, hleaves.partition, fun c => ?_⟩
    obtain ⟨i, hfilter, hmove⟩ := hleaves.filter_eq c
    exact ⟨⟨i, a.next s c⟩, hfilter, hmove⟩

/-- The letters `b` and `y` lie in one class of the lower case letters, and lead to one handle. -/
theorem derivative_of_lowercase :
    lowercase.pool.Reachable ∧ ∃ x next, (lowercase.expr.derivative 'b').outcome lowercase.pool = (.ok x, next) ∧
      (lowercase.expr.derivative 'y').outcome next = (.ok x, next) := by
  obtain ⟨cells, hclasses, _, _, hconstant⟩ := (derivative_constant_on_cells reachable_lowercase).1 _ has_lowercase
    anchorFree_lowercase
  have hcells : cells = (Interval.mk 'a' 'z').cells := by
    have hok := hclasses lowercase.pool .refl
    rw [classes_eq, node_lowercase, nodeClasses] at hok
    cases hok
    rfl
  have hcell : Interval.mk 'a' 'z' ∈ cells := by simp [hcells, Interval.cells]
  obtain ⟨x, next, hrun, hagain⟩ :=
    hconstant _ hcell 'b' (by decide) 'y' (by decide) lowercase.pool .refl
  exact ⟨reachable_lowercase, x, next, hrun, hagain next .refl⟩

end Expr

end RegexAlgebra
