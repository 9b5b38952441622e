import Mathlib.Logic.Function.Iterate
import RegexAlgebra.Proofs.Plans
import RegexAlgebra.Proofs.Simulation

/-! # The monoid of concatenations

Without anchors the tree of a concatenation is made from those of its operands alone, and handles are determined by
their trees. So what is made up of concatenations has the handle that its tree says, in whatever order it is put
together and whatever else is asked of the pool in between. Concatenations on trees are associative; hence so are those
on handles, and copies of a handle can be counted in parts.
-/

namespace RegexAlgebra

open Pool

/-! ## Sessions that come to one handle -/

namespace Session

/-- The first session gives a handle, and whenever the other one is run later it gives this handle too. -/
def Foretells (first second : Session Expr) (pool : Pool) : Prop :=
  ∃ a middle, first.outcome pool = (.ok a, middle) ∧
    ∀ later, middle.Later later → ∃ after, second.outcome later = (.ok a, after)

/-- The two sessions give one handle, whichever of them is run first and whatever happens in between. -/
def Coincide (first second : Session Expr) (pool : Pool) : Prop :=
  first.Foretells second pool ∧ second.Foretells first pool

end Session

namespace Pool

variable {pool later : Pool} {t : Tree} {e f : Expr}

/-! ## Handles with a given tree -/

/-- A handle without anchors that has the tree. -/
structure Spells (pool : Pool) (t : Tree) (e : Expr) : Prop where
  has : pool.Has e
  anchorFree : pool.AnchorFree e
  tree_eq : pool.tree e = t

namespace Spells

theorem mono (h : pool.Spells t e) (hext : Extends pool later) : later.Spells t e where
  has := hext.has h.has
  anchorFree := (hext.anchorFree_iff h.has).2 h.anchorFree
  tree_eq := (hext.tree_eq h.has).trans h.tree_eq

/-- There is one such handle at most. -/
theorem eq (h : pool.Spells t e) (h' : pool.Spells t f) (hform : pool.InNormalForm) : e = f :=
  hform.tree_injective h.has h'.has (h.tree_eq.trans h'.tree_eq.symm)

end Spells

theorem spells_tree (he : pool.Has e) (hfree : pool.AnchorFree e) : pool.Spells (pool.tree e) e := ⟨he, hfree, rfl⟩

theorem spells_epsilon (h : pool.Sound) (hform : pool.InNormalForm) : pool.Spells .epsilon .epsilon :=
  ⟨h.has_epsilon, h.anchorFree_epsilon, hform.tree_epsilon⟩

end Pool

/-! ## Copies of a tree -/

theorem Tree.cat_iterate (s t : Tree) (count : Nat) : ((s.cat)^[count] .epsilon).cat t = (s.cat)^[count] t := by
  induction count with
  | zero => exact Tree.epsilon_cat
  | succ count ih => rw [Function.iterate_succ_apply', Function.iterate_succ_apply', Tree.cat_assoc, ih]

/-- So many copies and then so many are as many as both numbers say. -/
theorem Tree.iterate_add (s : Tree) (m n : Nat) :
    (s.cat)^[m + n] .epsilon = ((s.cat)^[m] .epsilon).cat ((s.cat)^[n] .epsilon) := by
  rw [Tree.cat_iterate, Function.iterate_add_apply]

namespace Session

variable {pool : Pool} {s t : Tree} {a b e tail : Expr} {first second : Session Expr}

/-- Wherever the pool has grown to, the session gives a handle with the tree. -/
def Spells (session : Session Expr) (t : Tree) (pool : Pool) : Prop :=
  ∀ later, pool.Grows later → Session.Ends session later (fun e after => after.Spells t e) fun _ => False

theorem Spells.foretells (h : first.Spells t pool) (h' : second.Spells t pool) (hpool : pool.Reachable) :
    first.Foretells second pool := by
  obtain ⟨e, middle, hrun, hgrows, hspells⟩ := (h pool .refl).returns
  refine ⟨e, middle, outcome_of_ok hrun, fun later hlater => ?_⟩
  have hsound := hgrows.sound hpool.sound
  have hgrows' := hgrows.trans (hlater.grows hsound)
  obtain ⟨f, after, hrun', hgrows'', hspells'⟩ := (h' later hgrows').returns
  -- The first handle keeps its tree, and in the last pool the tree has one handle.
  have hext := ((hlater.grows hsound).trans hgrows'').extends_pool hsound
  have hcanonical := (hgrows'.trans hgrows'').canonical hpool.sound hpool.canonical
  have heq := hspells'.eq (hspells.mono hext) hcanonical.toInNormalForm
  exact ⟨after, heq ▸ outcome_of_ok hrun'⟩

theorem Spells.coincide (h : first.Spells t pool) (h' : second.Spells t pool) (hpool : pool.Reachable) :
    first.Coincide second pool := ⟨h.foretells h' hpool, h'.foretells h hpool⟩

/-! ## Constructors -/

theorem ends_concat (h : pool.Sound) (hcanonical : pool.Canonical) (ha : pool.Spells s a) (hb : pool.Spells t b) :
    Session.Ends (build (·.concat a b)) pool (fun e later => later.Spells (s.cat t) e) fun _ => False := by
  refine (ends_binary h .concat ha.has hb.has).mono fun e later hgrows hsettles => ?_
  have htree := hsettles.tree_concat (hgrows.canonical h hcanonical) ha.anchorFree hb.anchorFree
  rw [ha.tree_eq, hb.tree_eq] at htree
  have hext := hsettles.remembers.toExtends
  have hfree := hsettles.answers.anchorFree_binary (ha.mono hext).anchorFree (hb.mono hext).anchorFree
  exact ⟨hsettles.answers.has, hfree, htree⟩

theorem ends_prepend (h : pool.Sound) (hcanonical : pool.Canonical) (he : pool.Spells s e)
    (htail : pool.Spells t tail) (count : Nat) :
    Session.Ends (build (·.prepend e count tail)) pool (fun e later => later.Spells ((s.cat)^[count] t) e)
      fun _ => False := by
  induction count generalizing pool tail t with
  | zero => exact .pure htail
  | succ count ih =>
      have hsteps : build (·.prepend e (count + 1) tail) pool =
          (build (·.concat e tail) >>= fun longer => build (·.prepend e count longer)) pool := rfl
      refine RegexAlgebra.Ends.congr hsteps ((ends_concat h hcanonical he htail).bind ?_)
      intro longer middle hgrows hlonger
      exact ih (hgrows.sound h) (hgrows.canonical h hcanonical) (he.mono (hgrows.extends_pool h)) hlonger

/-! ## Sessions that give handles with a given tree -/

theorem spells_pure (h : pool.Sound) (he : pool.Spells t e) : Spells (pure e) t pool := fun _ hgrows =>
  .pure (he.mono (hgrows.extends_pool h))

theorem spells_repeatExactly (h : pool.Sound) (hcanonical : pool.Canonical) (he : pool.Spells s e) (count : Nat) :
    Spells (build (·.repeatExactly e count)) ((s.cat)^[count] .epsilon) pool := by
  intro later hgrows
  have hsound := hgrows.sound h
  have hcanonical' := hgrows.canonical h hcanonical
  have hepsilon := spells_epsilon hsound hcanonical'.toInNormalForm
  exact ends_prepend hsound hcanonical' (he.mono (hgrows.extends_pool h)) hepsilon count

theorem Spells.concat (hfirst : first.Spells s pool) (hsecond : second.Spells t pool) (h : pool.Sound)
    (hcanonical : pool.Canonical) :
    Spells (do let a ← first; let b ← second; build (·.concat a b)) (s.cat t) pool := by
  intro later hgrows
  refine (hfirst later hgrows).bind fun a middle hgrows' ha => ?_
  have hmiddle := hgrows.trans hgrows'
  refine (hsecond middle hmiddle).bind fun b last hgrows'' hb => ?_
  have hlast := hmiddle.trans hgrows''
  exact ends_concat (hlast.sound h) (hlast.canonical h hcanonical)
    (ha.mono (hgrows''.extends_pool (hmiddle.sound h))) hb

end Session

namespace Pool

open Session (build)

variable {pool : Pool}

/-! ## Units and zero -/

/-- With the empty word or with nothing, a rule answers at once, anchors or not. -/
theorem FollowsPlans.concat_units (h : pool.FollowsPlans) (a : Expr) :
    (pool.concat .epsilon a).expr = a ∧ (pool.concat a .epsilon).expr = a ∧
      (pool.concat .empty a).expr = .empty ∧ (pool.concat a .empty).expr = .empty := by
  have hne : Expr.epsilon ≠ Expr.empty := by decide
  have hleft : pool.rule .concat .epsilon a = .done a := by
    by_cases ha : a = .empty <;> simp [rule, concatRule, hne, ha]
  have hright : pool.rule .concat a .epsilon = .done a := by
    by_cases ha : a = .empty <;> by_cases ha' : a = .epsilon <;> simp [rule, concatRule, hne, ha, ha']
  have hleft' : pool.rule .concat .empty a = .done .empty := by simp [rule, concatRule]
  have hright' : pool.rule .concat a .empty = .done .empty := by simp [rule, concatRule]
  exact ⟨(h.binary_of_done hleft).1, (h.binary_of_done hright).1, (h.binary_of_done hleft').1,
    (h.binary_of_done hright').1⟩

/-- On every pool with a history, concatenation is associative on expressions without anchors, the empty word is its
neutral element on both sides, and nothing absorbs on both sides: the handles are the same ones. So copies of an
expression without anchors have the same handle whether they are made at once or in two parts. -/
theorem concatenation_is_monoid (h : pool.Reachable) :
    (∀ a b c, pool.Has a → pool.AnchorFree a → pool.Has b → pool.AnchorFree b → pool.Has c → pool.AnchorFree c →
      Session.Coincide (do let ab ← build (·.concat a b); build (·.concat ab c))
        (do let bc ← build (·.concat b c); build (·.concat a bc)) pool) ∧
    (∀ a, (pool.concat .epsilon a).expr = a ∧ (pool.concat a .epsilon).expr = a ∧
      (pool.concat .empty a).expr = .empty ∧ (pool.concat a .empty).expr = .empty) ∧
    ∀ e m n, pool.Has e → pool.AnchorFree e →
      Session.Coincide (build (·.repeatExactly e (m + n)))
        (do
          let first ← build (·.repeatExactly e m)
          let second ← build (·.repeatExactly e n)
          build (·.concat first second)) pool := by
  have hsound := h.sound
  have hcanonical := h.canonical
  refine ⟨?_, h.followsPlans.concat_units, ?_⟩
  · intro a b c ha hfa hb hfb hc hfc
    have ha := Session.spells_pure hsound (spells_tree ha hfa)
    have hb := Session.spells_pure hsound (spells_tree hb hfb)
    have hc := Session.spells_pure hsound (spells_tree hc hfc)
    have hleft := (ha.concat hb hsound hcanonical).concat hc hsound hcanonical
    have hright := ha.concat (hb.concat hc hsound hcanonical) hsound hcanonical
    rw [Tree.cat_assoc] at hleft
    exact hleft.coincide hright h
  · intro e m n he hfree
    have hcopies := Session.spells_repeatExactly hsound hcanonical (spells_tree he hfree)
    have hwhole := hcopies (m + n)
    rw [Tree.iterate_add] at hwhole
    exact hwhole.coincide ((hcopies m).concat (hcopies n) hsound hcanonical) h

/-- Three lower case letters have one handle, however they are put together. -/
theorem concatenation_of_lowercase :
    Session.Coincide
      (do let two ← build (·.concat lowercase.expr lowercase.expr); build (·.concat two lowercase.expr))
      (do let two ← build (·.concat lowercase.expr lowercase.expr); build (·.concat lowercase.expr two))
      lowercase.pool ∧
    Session.Coincide (build (·.repeatExactly lowercase.expr (2 + 1)))
      (do
        let first ← build (·.repeatExactly lowercase.expr 2)
        let second ← build (·.repeatExactly lowercase.expr 1)
        build (·.concat first second)) lowercase.pool := by
  have hhas := has_lowercase
  have hfree := anchorFree_lowercase
  obtain ⟨hassoc, _, hcopies⟩ := concatenation_is_monoid reachable_lowercase
  exact ⟨hassoc _ _ _ hhas hfree hhas hfree hhas hfree, hcopies _ 2 1 hhas hfree⟩

end Pool

end RegexAlgebra
