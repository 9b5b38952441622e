import RegexAlgebra.Proofs.Derivatives
import RegexAlgebra.Proofs.Partitions

/-! # Derivatives taken again

What is read off the nodes of a pool is the same in every pool that it grows into. So a derivative that is taken again
makes the same requests, and they are all answered. The same is true of a derivative by another symbol of the same
character class, because the two derivatives make the same requests.
-/

namespace RegexAlgebra

open Pool

/-! ## Symbols of one class -/

namespace Pool

variable {pool later : Pool} {e l r s : Expr} {c d : Char} {op : BinaryOp}

/-- The symbols are the same, or lie in the same character class of the expression. -/
def Alike (pool : Pool) (e : Expr) (c d : Char) : Prop :=
  c = d ∨ ∃ cells cell, pool.classes e = .ok cells ∧ cell ∈ cells ∧ c ∈ cell ∧ d ∈ cell

theorem alike_of_refine {ls rs : List Interval} {cell : Interval} (hls : pool.classes l = .ok ls)
    (hrs : pool.classes r = .ok rs) (hcell : cell ∈ Partition.refine ls rs) (hc : c ∈ cell) (hd : d ∈ cell) :
    pool.Alike l c d ∧ pool.Alike r c d := by
  obtain ⟨i, hi, j, hj, rfl⟩ := Partition.mem_refine hcell
  rw [Interval.mem_inter] at hc hd
  exact ⟨Or.inr ⟨ls, i, hls, hi, hc.1, hd.1⟩, Or.inr ⟨rs, j, hrs, hj, hc.2, hd.2⟩⟩

/-- Symbols of one class are so for the operands whose derivatives take part. -/
theorem Alike.binary (h : pool.Alike e c d) (hn : pool.node e = .binary op l r) :
    pool.Alike l c d ∧ ((op = .concat → pool.isNullable l = .ok true) → pool.Alike r c d) := by
  rcases h with heq | ⟨cells, cell, hcells, hcell, hc, hd⟩
  · exact ⟨Or.inl heq, fun _ => Or.inl heq⟩
  · rw [classes_eq, hn] at hcells
    rcases nodeClasses_binary hcells with ⟨hop, hnullable, hls⟩ | ⟨_, hboth⟩
    · refine ⟨Or.inr ⟨cells, cell, hls, hcell, hc, hd⟩, fun htrue => ?_⟩
      rw [htrue hop] at hnullable
      cases hnullable
    · obtain ⟨ls, rs, hls, hrs, rfl⟩ := bothClasses_eq_ok_iff.1 hboth
      have hboth := alike_of_refine hls hrs hcell hc hd
      exact ⟨hboth.1, fun _ => hboth.2⟩

theorem Alike.unary {op : UnaryOp} (h : pool.Alike e c d) (hn : pool.node e = .unary op s) : pool.Alike s c d := by
  rcases h with heq | ⟨cells, cell, hcells, hrest⟩
  · exact Or.inl heq
  · rw [classes_eq, hn] at hcells
    exact Or.inr ⟨cells, cell, hcells, hrest⟩

/-- A cell of an interval lies in the interval or outside it. -/
theorem contains_eq_of_cells {interval cell : Interval} (hcell : cell ∈ interval.cells) (hc : c ∈ cell)
    (hd : d ∈ cell) : interval.contains c = interval.contains d := by
  have hout : ∀ {x}, x ∈ cell → cell ≠ interval → interval.contains x = false := by
    intro x hx hne
    rw [← Bool.not_eq_true, Interval.contains_iff]
    intro hmem
    simp only [Interval.mem_iff, Symbol.le_iff_position_le] at hx hmem
    unfold Interval.cells Interval.below Interval.above at hcell
    rcases List.mem_append.1 hcell with hbelow | hrest
    · cases hprevious : Symbol.previous? interval.low with
      | none => simp [hprevious] at hbelow
      | some high =>
          simp only [hprevious, List.mem_singleton] at hbelow
          subst hbelow
          have hposition := Symbol.previous?_eq_some_iff.1 hprevious
          simp only at hx
          omega
    · rcases List.mem_cons.1 hrest with heq | habove
      · exact hne heq
      · cases hnext : Symbol.next? interval.high with
        | none => simp [hnext] at habove
        | some low =>
            simp only [hnext, List.mem_singleton] at habove
            subst habove
            have hposition := Symbol.next?_eq_some_iff.1 hnext
            simp only at hx
            omega
  by_cases hself : cell = interval
  · subst hself
    rw [Interval.contains_iff.2 hc, Interval.contains_iff.2 hd]
  · rw [hout hc hself, hout hd hself]

theorem Alike.range {interval : Interval} (h : pool.Alike e c d) (hn : pool.node e = .range interval) :
    interval.contains c = interval.contains d := by
  rcases h with heq | ⟨cells, cell, hcells, hcell, hc, hd⟩
  · rw [heq]
  · rw [classes_eq, hn] at hcells
    cases hcells
    exact contains_eq_of_cells hcell hc hd

/-! ## Nullability in a grown pool -/

/-- Whether a node matches the empty word, by what its operands match. -/
def nodeIsNullable (pool : Pool) : Node → Except Error Bool
  | .empty => .ok false
  | .range _ => .ok false
  | .epsilon => .ok true
  | .startAnchor => .error (.anchorReached .nullability)
  | .endAnchor => .error (.anchorReached .nullability)
  | .binary .union left right => do
    let a ← pool.isNullable left
    let b ← pool.isNullable right
    return a || b
  | .binary _ left right => do
    if ← pool.isNullable left then pool.isNullable right else return false
  | .unary .star _ => .ok true
  | .unary .negate sub => do
    let a ← pool.isNullable sub
    return !a

theorem isNullable_eq (pool : Pool) (e : Expr) : pool.isNullable e = pool.nodeIsNullable (pool.node e) := by
  rw [isNullable]
  split <;> rename_i hn <;> rw [hn] <;> rfl

theorem Extends.isNullable_eq (hext : Extends pool later) (he : pool.Has e) :
    later.isNullable e = pool.isNullable e := by
  induction e using operandInduction pool with
  | step e ih =>
      rw [Pool.isNullable_eq, Pool.isNullable_eq, hext.node_eq e he]
      cases hn : pool.node e with
      | binary op l r =>
          have hl : l ∈ (pool.node e).operands := by simp [hn, Node.operands]
          have hr : r ∈ (pool.node e).operands := by simp [hn, Node.operands]
          cases op <;> simp only [nodeIsNullable, ih l hl (he.operand hl), ih r hr (he.operand hr)]
      | unary op s =>
          have hs : s ∈ (pool.node e).operands := by simp [hn, Node.operands]
          cases op <;> simp only [nodeIsNullable, ih s hs (he.operand hs)]
      | _ => rfl

end Pool

/-! ## Derivatives -/

namespace Expr

open Pool Session

variable {pool start : Pool} {e l r : Expr} {c d : Char}

private theorem repeats_both {op : BinaryOp} (h : pool.Sound) (hop : op ≠ .concat) (hl : pool.Has l)
    (hr : pool.Has r) (hgrows : pool.Grows start)
    (hrepl : ∀ start, pool.Grows start → Session.Repeats (l.derivative c) (l.derivative d) start)
    (hrepr : ∀ start, pool.Grows start → Session.Repeats (r.derivative c) (r.derivative d) start) :
    Session.Repeats (e.derivativeOf c (.binary op l r)) (e.derivativeOf d (.binary op l r)) start := by
  have hrepeats : Session.Repeats
      (do let a ← l.derivative c; let b ← r.derivative c; build (·.binary op a b))
      (do let a ← l.derivative d; let b ← r.derivative d; build (·.binary op a b)) start := by
    apply (hrepl start hgrows).bind
    intro a middle hrun
    obtain ⟨hmiddle, ha⟩ := (derivative_ends h hl c hgrows).of_ok hrun
    have hgrows' := hgrows.trans hmiddle
    apply (hrepr middle hgrows').bind
    intro b later hrun
    obtain ⟨hlater, hb⟩ := (derivative_ends h hr c hgrows').of_ok hrun
    have hsound := hgrows'.sound h
    exact repeats_binary (hlater.sound hsound) op (hlater.has hsound ha.has) hb.has
  cases op with
  | union => exact hrepeats
  | intersect => exact hrepeats
  | concat => exact absurd rfl hop

private theorem repeats_concat (h : pool.Sound) (hl : pool.Has l) (hr : pool.Has r) (hgrows : pool.Grows start)
    (hrepl : ∀ start, pool.Grows start → Session.Repeats (l.derivative c) (l.derivative d) start)
    (hrepr : pool.isNullable l = .ok true →
      ∀ start, pool.Grows start → Session.Repeats (r.derivative c) (r.derivative d) start) :
    Session.Repeats (e.derivativeOf c (.binary .concat l r)) (e.derivativeOf d (.binary .concat l r)) start := by
  apply (hrepl start hgrows).bind
  intro a middle hrun
  obtain ⟨hmiddle, ha⟩ := (derivative_ends h hl c hgrows).of_ok hrun
  have hgrows' := hgrows.trans hmiddle
  have hsound := hgrows'.sound h
  have hr' := hgrows'.has h hr
  apply (repeats_binary hsound .concat ha.has hr').bind
  intro first later hrun
  have hends : Session.Ends (build (·.binary .concat a r)) middle _ fun _ => False :=
    ends_binary hsound .concat ha.has hr'
  obtain ⟨hlater, hfirst⟩ := hends.of_ok hrun
  have hgrows'' := hgrows'.trans hlater
  have hnullable : ∀ last, Extends later last → last.isNullable l = later.isNullable l := fun last hlast =>
    hlast.isNullable_eq (hgrows''.has h hl)
  apply (repeats_ask fun last hlast => hnullable last hlast.toExtends).bind
  intro nullable last hrun
  obtain ⟨_, heq, hask⟩ := (ends_ask (·.isNullable l) later).of_ok hrun
  subst heq
  cases nullable with
  | false => exact .pure first _
  | true =>
      have htrue : pool.isNullable l = .ok true := by
        rw [← (hgrows''.extends_pool h).isNullable_eq hl]
        exact hask
      apply (hrepr htrue last hgrows'').bind
      intro b end' hrun
      obtain ⟨hend, hb⟩ := (derivative_ends h hr c hgrows'').of_ok hrun
      exact repeats_binary (hend.sound hfirst.sound) .union (hend.has hfirst.sound hfirst.answers.has) hb.has

/-- Derivatives by symbols of one class are one expression, whenever they are taken. -/
theorem derivative_repeats (h : pool.Sound) (he : pool.Has e) (hcd : pool.Alike e c d) (hgrows : pool.Grows start) :
    Session.Repeats (e.derivative c) (e.derivative d) start := by
  induction e using operandInduction pool generalizing start with
  | step e ih =>
      have hext := hgrows.extends_pool h
      have hnode : ∀ later, Remembers start later → later.node e = start.node e := fun later hlater =>
        hlater.node_eq e (hext.has he)
      have hagain : ∀ later, Remembers start later →
          e.derivative d later = e.derivativeOf d (start.node e) later := fun later hlater => by
        rw [derivative_run, hnode later hlater]
      refine .congr (derivative_run e c start) hagain ?_
      rw [hext.node_eq e he]
      have hsub : ∀ o ∈ (pool.node e).operands, pool.Alike o c d →
          ∀ start, pool.Grows start → Session.Repeats (o.derivative c) (o.derivative d) start :=
        fun o ho halike start hgrows => ih o ho (he.operand ho) halike hgrows
      cases hn : pool.node e with
      | empty => exact .pure _ start
      | epsilon => exact .pure _ start
      | range interval =>
          have hcontains := hcd.range hn
          simp only [derivativeOf, hcontains]
          exact .pure _ start
      | startAnchor => exact .throw _ start
      | endAnchor => exact .throw _ start
      | binary op l r =>
          rw [hn] at hsub
          obtain ⟨hrepl, hrepr⟩ := Node.forall_operands_binary.1 hsub
          obtain ⟨hl, hr⟩ := has_of_binary hn he
          obtain ⟨halikel, haliker⟩ := hcd.binary hn
          by_cases hop : op = .concat
          · subst hop
            exact repeats_concat h hl hr hgrows (hrepl halikel) fun hnullable => hrepr (haliker fun _ => hnullable)
          · exact repeats_both h hop hl hr hgrows (hrepl halikel) (hrepr (haliker fun heq => absurd heq hop))
      | unary op s =>
          rw [hn] at hsub
          have hs : pool.Has s := he.operand (by simp [hn, Node.operands])
          have hrep := Node.forall_operands_unary.1 hsub (hcd.unary hn) start hgrows
          have hends := derivative_ends h hs c hgrows
          cases op with
          | star =>
              apply hrep.bind
              intro a middle hrun
              obtain ⟨hmiddle, ha⟩ := hends.of_ok hrun
              have hgrows' := hgrows.trans hmiddle
              exact repeats_binary (hgrows'.sound h) .concat ha.has (hgrows'.has h he)
          | negate =>
              apply hrep.bind
              intro a middle hrun
              obtain ⟨hmiddle, ha⟩ := hends.of_ok hrun
              exact repeats_unary ((hgrows.trans hmiddle).sound h) .negate ha.has

end Expr

end RegexAlgebra
