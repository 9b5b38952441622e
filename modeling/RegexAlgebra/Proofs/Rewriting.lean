import RegexAlgebra.Proofs.Histories

/-! # What a removal remembers does not matter

A removal that remembers the result for an expression in context gives it without another look. What it would come to
otherwise is the same handle, on the same pool: the result was built by requests that the pool has answered for good. So
a removal can be compared at any point with one that has only just begun, and two removals on one pool find the same,
whatever either of them remembers. What they find is exact in each of the four contexts.
-/

namespace RegexAlgebra

open Pool

/-- A handle of the pool for an expression without anchors. -/
def Pool.Plain (pool : Pool) (e : Expr) : Prop := pool.Has e ∧ pool.AnchorFree e

theorem Pool.Plain.mono {pool later : Pool} {e : Expr} (h : pool.Plain e) (hext : Extends pool later) : later.Plain e :=
  ⟨hext.has h.1, (hext.anchorFree_iff h.1).2 h.2⟩

namespace Removal

variable {pool : Pool} {removal other after : Removal} {e f d l r s : Expr} {step : Step Expr}
  {next : Expr → Step Expr} {atStart atEnd : Bool}

/-! ## Faithful memories -/

/-- On every pool that remembers this one, a removal that has only just begun finds the result for the expression in the
context, and leaves the pool as it is. -/
def Recalled (pool : Pool) (e : Expr) (atStart atEnd : Bool) (result : Expr) : Prop :=
  ∀ later, Remembers pool later → ∃ last, inContext e atStart atEnd (start later) = .ok result last ∧ last.pool = later

/-- What the removal remembers is right, and would be found again without the memory. -/
structure Faithful (removal : Removal) : Prop extends Sound removal where
  recalled : ∀ e atStart atEnd d, removal.results[(e, atStart, atEnd)]? = some d →
    Recalled removal.pool e atStart atEnd d

theorem faithful_start (h : pool.Sound) : (start pool).Faithful where
  toSound := sound_start h
  recalled := fun e atStart atEnd d hd => by simp [start] at hd

theorem Faithful.grow {later : Pool} (h : removal.Faithful) (hgrows : removal.pool.Grows later) :
    Faithful { removal with pool := later } where
  toSound := h.toSound.grow hgrows
  recalled := fun e atStart atEnd d hd last hlast =>
    h.recalled e atStart atEnd d hd last ((hgrows.remembers h.pool).trans hlast)

/-- The removal once it has found out whether an anchor stands in the expression. -/
def searched (removal : Removal) (e : Expr) : Removal :=
  { removal with anchored := (removal.pool.isAnchored e removal.anchored).2 }

theorem Faithful.searched (h : removal.Faithful) (he : removal.pool.Has e) : (removal.searched e).Faithful where
  pool := h.pool
  anchored := (isAnchored_spec h.anchored he).2
  results := h.results
  recalled := h.recalled

/-! ## Steps that find the same -/

/-- The removals are on one pool, and remember nothing that would not be found again. -/
structure Alike (removal other : Removal) : Prop where
  pool_eq : other.pool = removal.pool
  left : removal.Faithful
  right : other.Faithful

/-- The step gives both removals the same expression without anchors, and leaves them on one pool. -/
def Agrees (step : Step Expr) (removal other : Removal) : Prop :=
  ∃ d after after', step removal = .ok d after ∧ step other = .ok d after' ∧ removal.pool.Grows after.pool ∧
    after.Alike after' ∧ after.pool.Plain d

theorem agrees_pure (h : removal.Alike other) (hd : removal.pool.Plain d) : Agrees (pure d) removal other :=
  ⟨d, removal, other, rfl, rfl, .refl, h, hd⟩

theorem Agrees.bind (h : removal.Alike other) (hstep : Agrees step removal other)
    (hnext : ∀ d after after', removal.pool.Grows after.pool → after.Alike after' →
      (∀ e, removal.pool.Plain e → after.pool.Plain e) → after.pool.Plain d → Agrees (next d) after after') :
    Agrees (step >>= next) removal other := by
  obtain ⟨d, middle, middle', hrun, hrun', hgrows, halike, hd⟩ := hstep
  have hkeeps : ∀ e, removal.pool.Plain e → middle.pool.Plain e := fun _ he =>
    he.mono (hgrows.extends_pool h.left.pool)
  obtain ⟨b, last, last', hlast, hlast', hgrows', hrest⟩ := hnext d middle middle' hgrows halike hkeeps hd
  exact ⟨b, last, last', (bind_of_ok hrun).trans hlast, (bind_of_ok hrun').trans hlast', hgrows.trans hgrows', hrest⟩

theorem agrees_build {constructor : Pool → Built} (h : removal.Alike other)
    (hgrows : removal.pool.Grows (constructor removal.pool).pool)
    (hd : (constructor removal.pool).pool.Plain (constructor removal.pool).expr) :
    Agrees (build constructor) removal other := by
  have hrun : build constructor other =
      .ok (constructor removal.pool).expr { other with pool := (constructor removal.pool).pool } := by
    simp only [build, h.pool_eq]
  have hgrows' : other.pool.Grows (constructor removal.pool).pool := by
    rw [h.pool_eq]
    exact hgrows
  exact ⟨_, _, _, rfl, hrun, hgrows, ⟨rfl, h.left.grow hgrows, h.right.grow hgrows'⟩, hd⟩

theorem agrees_binary (h : removal.Alike other) (op : BinaryOp) (he : removal.pool.Plain e)
    (hf : removal.pool.Plain f) : Agrees (build (·.binary op e f)) removal other := by
  have hgrows : removal.pool.Grows (removal.pool.binary op e f).pool := .binary op .refl he.1 hf.1
  have hanswers := (binary_settles h.left.pool op he.1 hf.1).answers
  have hext := hgrows.extends_pool h.left.pool
  have hfree := hanswers.anchorFree rfl (Node.forall_operands_binary.2 ⟨(he.mono hext).2, (hf.mono hext).2⟩)
  exact agrees_build h hgrows ⟨hanswers.has, hfree⟩

theorem agrees_unary (h : removal.Alike other) (op : UnaryOp) (he : removal.pool.Plain e) :
    Agrees (build (·.unary op e)) removal other := by
  have hgrows : removal.pool.Grows (removal.pool.unary op e).pool := .unary op .refl he.1
  have hanswers := (unary_settles h.left.pool op he.1).answers
  have hfree := hanswers.anchorFree rfl (Node.forall_operands_unary.2 (he.mono (hgrows.extends_pool h.left.pool)).2)
  exact agrees_build h hgrows ⟨hanswers.has, hfree⟩

/-- A question about the pool that has an answer is answered to both removals. -/
theorem agrees_ask {α : Type} {question : Pool → Except Error α} {a : α} {next : α → Step Expr}
    (h : removal.Alike other) (hanswer : question removal.pool = .ok a) (hnext : Agrees (next a) removal other) :
    Agrees (ask question >>= next) removal other := by
  have hrun : ask question removal = .ok a removal := by simp only [ask, hanswer]
  have hrun' : ask question other = .ok a other := by simp only [ask, h.pool_eq, hanswer]
  unfold Agrees at hnext ⊢
  rw [bind_of_ok hrun, bind_of_ok hrun']
  exact hnext

theorem agrees_consuming (h : removal.Alike other) (he : removal.pool.Plain e) :
    Agrees (consuming e) removal other := by
  unfold consuming
  by_cases hleaf : e = .epsilon ∨ e = .empty
  · rw [if_pos hleaf]
    exact agrees_pure h ⟨h.left.pool.has_empty, h.left.pool.anchorFree_empty⟩
  · rw [if_neg hleaf]
    obtain ⟨b, hb, _⟩ := isNullable_of_anchorFree he.2
    apply agrees_ask h hb
    cases b with
    | false => exact agrees_pure h he
    | true =>
        apply (agrees_unary h .negate ⟨h.left.pool.has_epsilon, h.left.pool.anchorFree_epsilon⟩).bind h
        intro some middle middle' _ hmiddle hkeeps hsome
        exact agrees_binary hmiddle .intersect (hkeeps e he) hsome

theorem agrees_vanishing (h : removal.Alike other) (he : removal.pool.Plain e) :
    Agrees (vanishing e) removal other := by
  obtain ⟨b, hb, _⟩ := nullable_of_anchorFree he.2
  unfold vanishing
  rw [← bind_pure (ask _)]
  exact agrees_ask h hb (agrees_pure h ⟨h.left.pool.has_ofBool b, h.left.pool.anchorFree_ofBool b⟩)

/-! ## Steps that find the same from a pool on -/

/-- The step finds the same in any two removals on one pool that has grown from the given one. -/
def AgreesFrom (pool : Pool) (step : Step Expr) : Prop :=
  ∀ ⦃removal other : Removal⦄, pool.Grows removal.pool → removal.Alike other → Agrees step removal other

namespace AgreesFrom

variable {first second : Step Expr}

theorem both (op : BinaryOp) (hfirst : AgreesFrom pool first) (hsecond : AgreesFrom pool second) :
    AgreesFrom pool (both op first second) := by
  intro removal other hgrows h
  apply (hfirst hgrows h).bind h
  intro a middle middle' hmiddle h₁ _ ha
  apply (hsecond (hgrows.trans hmiddle) h₁).bind h₁
  intro b last last' _ h₂ hkeeps hb
  exact agrees_binary h₂ op (hkeeps a ha) hb

theorem consuming (h : AgreesFrom pool (inContext e atStart atEnd)) :
    AgreesFrom pool (part consuming e atStart atEnd) := by
  intro removal other hgrows halike
  exact (h hgrows halike).bind halike fun d _ _ _ hmiddle _ hd => agrees_consuming hmiddle hd

theorem vanishing (h : AgreesFrom pool (inContext e atStart atEnd)) :
    AgreesFrom pool (part vanishing e atStart atEnd) := by
  intro removal other hgrows halike
  exact (h hgrows halike).bind halike fun d _ _ _ hmiddle _ hd => agrees_vanishing hmiddle hd

end AgreesFrom

private theorem agrees_layer_concat (hl : ∀ atStart atEnd, AgreesFrom pool (inContext l atStart atEnd))
    (hr : ∀ atStart atEnd, AgreesFrom pool (inContext r atStart atEnd)) :
    AgreesFrom pool (layer e atStart atEnd (.binary .concat l r)) := by
  have hsplit := (hl atStart false).consuming.both .concat (hr false atEnd).consuming
  have honlyRight := (hl atStart false).vanishing.both .concat (hr atStart atEnd).consuming
  have honlyLeft := (hl atStart atEnd).consuming.both .concat (hr false atEnd).vanishing
  have hneither := (hl atStart atEnd).vanishing.both .concat (hr atStart atEnd).vanishing
  exact hsplit.both .union (honlyRight.both .union (honlyLeft.both .union hneither))

private theorem agrees_layer_star (hs : ∀ atStart atEnd, AgreesFrom pool (inContext s atStart atEnd)) :
    AgreesFrom pool (layer e atStart atEnd (.unary .star s)) := by
  intro removal other hgrows h
  apply ((hs atStart atEnd).consuming hgrows h).bind h
  intro once m₁ _ hg₁ h₁ _ honce
  apply ((hs atStart false).consuming (hgrows.trans hg₁) h₁).bind h₁
  intro first m₂ _ hg₂ h₂ k₂ hfirst
  apply ((hs false false).consuming (hgrows.trans (hg₁.trans hg₂)) h₂).bind h₂
  intro inner m₃ _ hg₃ h₃ k₃ hinner
  apply ((hs false atEnd).consuming (hgrows.trans (hg₁.trans (hg₂.trans hg₃))) h₃).bind h₃
  intro last m₄ _ _ h₄ k₄ hlast
  apply (agrees_unary h₄ .star (k₄ _ hinner)).bind h₄
  intro inners m₅ _ _ h₅ k₅ hinners
  apply (agrees_binary h₅ .concat hinners (k₅ _ hlast)).bind h₅
  intro tail m₆ _ _ h₆ k₆ htail
  apply (agrees_binary h₆ .concat (k₆ _ (k₅ _ (k₄ _ (k₃ _ hfirst)))) htail).bind h₆
  intro many m₇ _ _ h₇ k₇ hmany
  apply (agrees_binary h₇ .union (k₇ _ (k₆ _ (k₅ _ (k₄ _ (k₃ _ (k₂ _ honce)))))) hmany).bind h₇
  intro nonEmpty m₈ _ _ h₈ _ hnonEmpty
  exact agrees_binary h₈ .union ⟨h₈.left.pool.has_epsilon, h₈.left.pool.anchorFree_epsilon⟩ hnonEmpty

private theorem agrees_layer {n : Node} (hpool : pool.Sound) (he : pool.Has e) (hn : pool.node e = n)
    (hops : ∀ o ∈ n.operands, ∀ atStart atEnd, AgreesFrom pool (inContext o atStart atEnd)) :
    AgreesFrom pool (layer e atStart atEnd n) := by
  have hself : n.isAnchor = false → n.operands = [] → AgreesFrom pool (pure e) := by
    intro hanchor hnil removal other hgrows h
    have hplain : pool.Plain e := by
      refine ⟨he, ?_⟩
      rw [anchorFree_iff, hn, hnil]
      simp [hanchor]
    exact agrees_pure h (hplain.mono (hgrows.extends_pool hpool))
  have hleaf : ∀ b, AgreesFrom pool (pure (.ofBool b)) := fun b removal other _ h =>
    agrees_pure h ⟨h.left.pool.has_ofBool b, h.left.pool.anchorFree_ofBool b⟩
  cases n with
  | empty => exact hself rfl rfl
  | epsilon => exact hself rfl rfl
  | range interval => exact hself rfl rfl
  | startAnchor => exact hleaf atStart
  | endAnchor => exact hleaf atEnd
  | binary op l r =>
      obtain ⟨hl, hr⟩ := Node.forall_operands_binary.1 hops
      cases op with
      | union => exact (hl atStart atEnd).both .union (hr atStart atEnd)
      | intersect => exact (hl atStart atEnd).both .intersect (hr atStart atEnd)
      | concat => exact agrees_layer_concat hl hr
  | unary op s =>
      have hs := Node.forall_operands_unary.1 hops
      cases op with
      | star => exact agrees_layer_star hs
      | negate =>
          intro removal other hgrows h
          exact (hs atStart atEnd hgrows h).bind h fun a _ _ _ hmiddle _ ha => agrees_unary hmiddle .negate ha

/-! ## Results in context -/

theorem inContext_of_anchorFree (h : removal.Faithful) (he : removal.pool.Has e) (hfree : removal.pool.AnchorFree e) :
    inContext e atStart atEnd removal = .ok e (removal.searched e) := by
  have hfound : isAnchored e removal = .ok false (removal.searched e) := by
    have hfalse : (removal.pool.isAnchored e removal.anchored).1 = false := by
      rw [← Bool.not_eq_true, (isAnchored_spec h.anchored he).1]
      exact not_not.2 hfree
    simp only [isAnchored, hfalse, searched]
  rw [inContext_eq, bind_of_ok hfound]
  rfl

private theorem isAnchored_of_not_anchorFree (h : removal.Faithful) (he : removal.pool.Has e)
    (hanchored : ¬ removal.pool.AnchorFree e) : isAnchored e removal = .ok true (removal.searched e) := by
  have htrue : (removal.pool.isAnchored e removal.anchored).1 = true := (isAnchored_spec h.anchored he).1.2 hanchored
  simp only [isAnchored, htrue, searched]

theorem inContext_of_known (h : removal.Faithful) (he : removal.pool.Has e) (hanchored : ¬ removal.pool.AnchorFree e)
    (hd : removal.results[(e, atStart, atEnd)]? = some d) :
    inContext e atStart atEnd removal = .ok d (removal.searched e) := by
  have hget : (get : Step Removal) (removal.searched e) = .ok (removal.searched e) (removal.searched e) := rfl
  have hresult : (removal.searched e).results[(e, atStart, atEnd)]? = some d := hd
  rw [inContext_eq, bind_of_ok (isAnchored_of_not_anchorFree h he hanchored), if_pos rfl, bind_of_ok hget, hresult]
  rfl

theorem inContext_of_unknown (h : removal.Faithful) (he : removal.pool.Has e)
    (hanchored : ¬ removal.pool.AnchorFree e) (hd : removal.results[(e, atStart, atEnd)]? = none)
    (hrun : layer e atStart atEnd (removal.pool.node e) (removal.searched e) = .ok d after) :
    inContext e atStart atEnd removal =
      .ok d { after with results := after.results.insert (e, atStart, atEnd) d } := by
  have hget : (get : Step Removal) (removal.searched e) = .ok (removal.searched e) (removal.searched e) := rfl
  have hresult : (removal.searched e).results[(e, atStart, atEnd)]? = none := hd
  rw [inContext_eq, bind_of_ok (isAnchored_of_not_anchorFree h he hanchored), if_pos rfl, bind_of_ok hget, hresult]
  exact bind_of_ok hrun

/-! ## The memory makes no difference -/

theorem Alike.start (h : removal.Faithful) : removal.Alike (start removal.pool) where
  pool_eq := rfl
  left := h
  right := faithful_start h.pool

theorem Alike.searched (h : removal.Alike other) (he : removal.pool.Has e) :
    (removal.searched e).Alike (other.searched e) where
  pool_eq := h.pool_eq
  left := h.left.searched he
  right := h.right.searched (h.pool_eq ▸ he)

/-- Removals that find the same as a third one find the same. -/
theorem Agrees.common {third : Removal} (h : Agrees step removal third) (h' : Agrees step other third) :
    Agrees step removal other := by
  obtain ⟨d, after, last, hrun, hlast, hgrows, halike, hd⟩ := h
  obtain ⟨d', after', last', hrun', hlast', _, halike', _⟩ := h'
  cases hlast.symm.trans hlast'
  exact ⟨d, after, after', hrun, hrun', hgrows, ⟨halike'.pool_eq.symm.trans halike.pool_eq, halike.left, halike'.left⟩,
    hd⟩

/-- What was found from scratch is found again on every later pool. -/
theorem recalled_of_start (h : pool.Sound) (he : pool.Has e)
    (hrun : inContext e atStart atEnd (start pool) = .ok d after) : Recalled after.pool e atStart atEnd d :=
  fun later hlater =>
    ⟨_, (inContext_finds h he atStart atEnd .refl (sound_start h)).repeats.of_ok hrun later hlater, rfl⟩

theorem Faithful.insert (h : removal.Faithful) (he : removal.pool.Has e)
    (hd : removal.pool.Denotes (removal.pool.contextLanguage e atStart atEnd) d)
    (hrecalled : Recalled removal.pool e atStart atEnd d) :
    Faithful { removal with results := removal.results.insert (e, atStart, atEnd) d } where
  toSound := ((finds_remember h.toSound he hd).ends.of_ok rfl).2.1
  recalled := by
    intro e' atStart' atEnd' d' hd'
    rw [Std.HashMap.getElem?_insert] at hd'
    split at hd'
    · rename_i heq
      cases eq_of_beq heq
      cases hd'
      exact hrecalled
    · exact h.recalled e' atStart' atEnd' d' hd'

section Node

variable (hpool : pool.Sound) (he : pool.Has e)
  (hops : ∀ o ∈ (pool.node e).operands, ∀ atStart atEnd, AgreesFrom pool (inContext o atStart atEnd))
include hpool he hops

private theorem agrees_of_unknown (hgrows : pool.Grows removal.pool) (h : removal.Alike other)
    (hanchored : ¬ pool.AnchorFree e) (hnone : removal.results[(e, atStart, atEnd)]? = none)
    (hnone' : other.results[(e, atStart, atEnd)]? = none) : Agrees (inContext e atStart atEnd) removal other := by
  have hext := hgrows.extends_pool hpool
  have he' : removal.pool.Has e := hext.has he
  have hanchored' : ¬ removal.pool.AnchorFree e := mt (hext.anchorFree_iff he).1 hanchored
  have hlayer : AgreesFrom pool (layer e atStart atEnd (removal.pool.node e)) := by
    rw [hext.node_eq e he]
    exact agrees_layer hpool he rfl hops
  have hsearched : Agrees (layer e atStart atEnd (removal.pool.node e)) (removal.searched e) (other.searched e) :=
    hlayer hgrows (h.searched he')
  obtain ⟨d, after, after', hrun, hrun', hgrows', halike, hd⟩ := hsearched
  -- From scratch the same is found, so that it can be remembered.
  have hrecalled : Recalled after.pool e atStart atEnd d := by
    have hstart : Agrees (layer e atStart atEnd (removal.pool.node e)) (removal.searched e)
        ((start removal.pool).searched e) := hlayer hgrows ((Alike.start h.left).searched he')
    obtain ⟨d₀, after₀, last, hrun₀, hlast, _, halike₀, _⟩ := hstart
    cases hrun.symm.trans hrun₀
    have hscratch := inContext_of_unknown (Alike.start h.left).right he' hanchored' (by simp [start]) hlast
    have hrecalled := recalled_of_start h.left.pool he' hscratch
    exact halike₀.pool_eq ▸ hrecalled
  have hfound := inContext_of_unknown h.left he' hanchored' hnone hrun
  have hfound' : inContext e atStart atEnd other =
      .ok d { after' with results := after'.results.insert (e, atStart, atEnd) d } := by
    rw [← h.pool_eq] at he' hanchored' hrun'
    exact inContext_of_unknown h.right he' hanchored' hnone' hrun'
  have hlater := hgrows.trans hgrows'
  have hdenotes : after.pool.Denotes (after.pool.contextLanguage e atStart atEnd) d := by
    rw [(hlater.extends_pool hpool).contextLanguage_eq he]
    exact ((inContext_finds hpool he atStart atEnd hgrows h.left.toSound).ends.of_ok hfound).2.2
  have hhas : after.pool.Has e := hlater.has hpool he
  refine ⟨d, _, _, hfound, hfound', hgrows', ⟨halike.pool_eq, halike.left.insert hhas hdenotes hrecalled, ?_⟩, hd⟩
  rw [← halike.pool_eq] at hhas hdenotes hrecalled
  exact halike.right.insert hhas hdenotes hrecalled

private theorem agrees_start (hgrows : pool.Grows removal.pool) (h : removal.Faithful) :
    Agrees (inContext e atStart atEnd) removal (start removal.pool) := by
  have hext := hgrows.extends_pool hpool
  have he' : removal.pool.Has e := hext.has he
  have halike := Alike.start h
  by_cases hfree : pool.AnchorFree e
  · have hfree' : removal.pool.AnchorFree e := (hext.anchorFree_iff he).2 hfree
    exact ⟨e, _, _, inContext_of_anchorFree h he' hfree', inContext_of_anchorFree halike.right he' hfree', .refl,
      halike.searched he', he', hfree'⟩
  have hstart : (start removal.pool).results[(e, atStart, atEnd)]? = none := by simp [start]
  cases hresult : removal.results[(e, atStart, atEnd)]? with
  | none => exact agrees_of_unknown hpool he hops hgrows halike hfree hresult hstart
  | some d =>
      have hanchored : ¬ removal.pool.AnchorFree e := mt (hext.anchorFree_iff he).1 hfree
      have hknown := inContext_of_known h he' hanchored hresult
      obtain ⟨last, hlast, hpool_eq⟩ := h.recalled e atStart atEnd d hresult removal.pool (.refl removal.pool)
      have hscratch : Agrees (inContext e atStart atEnd) (start removal.pool) (start removal.pool) :=
        agrees_of_unknown hpool he hops hgrows ⟨rfl, halike.right, halike.right⟩ hfree hstart hstart
      obtain ⟨d', last', _, hlast', _, _, hagain, hd'⟩ := hscratch
      cases hlast.symm.trans hlast'
      rw [hpool_eq] at hd'
      exact ⟨d, _, last, hknown, hlast, .refl, ⟨hpool_eq, h.searched he', hagain.left⟩, hd'⟩

end Node

/-- Two removals on one pool find the same for an expression in a context, whatever either of them remembers. -/
theorem inContext_agrees (hpool : pool.Sound) (he : pool.Has e) (atStart atEnd : Bool) :
    AgreesFrom pool (inContext e atStart atEnd) := by
  induction e using operandInduction pool generalizing atStart atEnd with
  | step e ih =>
      intro removal other hgrows h
      have hops := fun o ho => ih o ho (he.operand ho)
      have hleft : Agrees (inContext e atStart atEnd) removal (start removal.pool) :=
        agrees_start hpool he hops hgrows h.left
      have hright : Agrees (inContext e atStart atEnd) other (start other.pool) :=
        agrees_start hpool he hops (h.pool_eq ▸ hgrows) h.right
      rw [h.pool_eq] at hright
      exact hleft.common hright

/-! ## Removals at work -/

/-- The removals that come up on the way of one: it begins on a pool with a history, and each of its steps looks for
anchors, rewrites a part in a context, or makes requests to the pool. -/
inductive Reached : Removal → Prop
  | start {pool : Pool} : pool.Reachable → Reached (start pool)
  | searched {removal after : Removal} {e : Expr} {found : Bool} : Reached removal → removal.pool.Has e →
      isAnchored e removal = .ok found after → Reached after
  | rewritten {removal after : Removal} {e d : Expr} {atStart atEnd : Bool} : Reached removal → removal.pool.Has e →
      inContext e atStart atEnd removal = .ok d after → Reached after
  | built {removal : Removal} {later : Pool} : Reached removal → removal.pool.Grows later →
      Reached { removal with pool := later }

theorem Reached.faithful (h : removal.Reached) : removal.Faithful := by
  induction h with
  | start hpool => exact faithful_start hpool.sound
  | searched _ he hrun ih =>
      cases hrun
      exact ih.searched he
  | rewritten _ he hrun ih =>
      obtain ⟨_, _, _, hrun', _, _, halike, _⟩ := inContext_agrees ih.pool he _ _ .refl (Alike.start ih)
      cases hrun.symm.trans hrun'
      exact halike.left
  | built _ hgrows ih => exact ih.grow hgrows

/-- The step gives an expression without anchors for the language, and gives the same one, on the same pool behind it,
where nothing is remembered. -/
structure Gives (step : Step Expr) (removal : Removal) (d : Expr) (L : Language Char) : Prop where
  exact : ∃ after, step removal = .ok d after ∧ after.pool.Denotes L d
  fromScratch : ∀ after, step removal = .ok d after →
    ∃ last, step (start removal.pool) = .ok d last ∧ last.pool = after.pool

theorem exists_gives {L : Language Char} (hfinds : Finds step removal L)
    (hagrees : Agrees step removal (start removal.pool)) : ∃ d, Gives step removal d L := by
  obtain ⟨d, after, last, hrun, hlast, _, halike, _⟩ := hagrees
  refine ⟨d, ⟨after, hrun, (hfinds.ends.of_ok hrun).2.2⟩, fun after' hrun' => ?_⟩
  cases hrun.symm.trans hrun'
  exact ⟨last, hlast, halike.pool_eq⟩

theorem vanishing_run (h : removal.Sound) (he : removal.pool.Has e)
    (hrun : part vanishing e atStart atEnd removal = .ok d after) :
    ([] ∈ removal.pool.contextLanguage e atStart atEnd → d = .epsilon) ∧
      ([] ∉ removal.pool.contextLanguage e atStart atEnd → d = .empty) := by
  obtain ⟨a, middle, hmiddle, _, _, ha⟩ := (inContext_finds h.pool he atStart atEnd .refl h).ends.returns
  obtain ⟨b, hb, hnil⟩ := nullable_of_anchorFree ha.anchorFree
  have hrun' : part vanishing e atStart atEnd removal = .ok (.ofBool b) middle := by
    rw [part, bind_of_ok hmiddle]
    simp only [vanishing, ask, hb]
  cases hrun.symm.trans hrun'
  rw [← ha.language_eq]
  constructor
  · intro hmem
    rw [hnil.2 hmem]
    rfl
  · intro hmem
    have hfalse : b = false := by simpa using mt hnil.1 hmem
    rw [hfalse]
    rfl

/-- At every point of a removal, and for each of the four contexts, rewriting an expression gives one without anchors,
with just the words of the pieces in this context that the expression matches, whichever pieces are taken for them; its
non-empty part has the non-empty ones of these words, and its empty part is the empty word where it is one of them and
nothing where not. None of the results depends on what the removal remembers. -/
theorem rewriting_is_exact (h : removal.Reached) (he : removal.pool.Has e) (atStart atEnd : Bool) :
    (∀ word, word ∈ removal.pool.contextLanguage e atStart atEnd ↔
      ∃ input i j, Pieces.InContext input i j atStart atEnd ∧ Pieces.slice input i j = word ∧
        removal.pool.Matches input e i j) ∧
    (∀ word, word ∈ removal.pool.contextLanguage e atStart atEnd ↔
      ∀ input i j, Pieces.InContext input i j atStart atEnd → Pieces.slice input i j = word →
        removal.pool.Matches input e i j) ∧
    (∃ d, Gives (inContext e atStart atEnd) removal d (removal.pool.contextLanguage e atStart atEnd)) ∧
    (∃ d, Gives (inContext e atStart atEnd >>= consuming) removal d
      {word | word ∈ removal.pool.contextLanguage e atStart atEnd ∧ word ≠ []}) ∧
    ∃ d, Gives (inContext e atStart atEnd >>= vanishing) removal d
        {word | word ∈ removal.pool.contextLanguage e atStart atEnd ∧ word = []} ∧
      ([] ∈ removal.pool.contextLanguage e atStart atEnd → d = .epsilon) ∧
      ([] ∉ removal.pool.contextLanguage e atStart atEnd → d = .empty) := by
  have hfaithful := h.faithful
  have hpool := hfaithful.pool
  have hreads := readsInContext removal.pool e
  have hfinds := inContext_finds hpool he atStart atEnd
  have hagrees := inContext_agrees hpool he atStart atEnd
  have halike := Alike.start hfaithful
  refine ⟨fun _ => Iff.rfl, fun word => ⟨?_, ?_⟩, ?_, ?_, ?_⟩
  · intro hword input i j hcontext hslice
    exact (hreads hcontext).2 (hslice ▸ hword)
  · intro hall
    obtain ⟨input, i, j, hcontext, hslice⟩ := Pieces.exists_inContext word atStart atEnd
    exact ⟨input, i, j, hcontext, hslice, hall input i j hcontext hslice⟩
  · exact exists_gives (hfinds .refl hfaithful.toSound) (hagrees .refl halike)
  · exact exists_gives (hfinds.consuming .refl hfaithful.toSound) (hagrees.consuming .refl halike)
  · obtain ⟨d, hd⟩ := exists_gives (hfinds.vanishing .refl hfaithful.toSound) (hagrees.vanishing .refl halike)
    obtain ⟨after, hrun, _⟩ := hd.exact
    exact ⟨d, hd, vanishing_run hfaithful.toSound he hrun⟩

/-- A removal that has rewritten one anchor after the other for the middle of an input still finds that the empty piece
of the empty input is matched, and no piece in front of the end. -/
theorem rewriting_of_wholeEmpty :
    ∃ removal d, inContext wholeEmpty.expr false false (start wholeEmpty.pool) = .ok d removal ∧
      (∃ after, (inContext wholeEmpty.expr true true >>= vanishing) removal = .ok .epsilon after) ∧
      ∃ after, (inContext wholeEmpty.expr true false >>= vanishing) removal = .ok .empty after := by
  have hsound := reachable_wholeEmpty.sound
  have hstart : Reached (start wholeEmpty.pool) := .start reachable_wholeEmpty
  obtain ⟨_, _, ⟨d, hd⟩, _⟩ := rewriting_is_exact hstart has_wholeEmpty false false
  obtain ⟨removal, hrun, _⟩ := hd.exact
  have hreached := hstart.rewritten has_wholeEmpty hrun
  obtain ⟨hgrows, _⟩ := (inContext_finds hsound has_wholeEmpty false false .refl (sound_start hsound)).ends.of_ok hrun
  have hext := hgrows.extends_pool hsound
  have hwhole : [] ∈ removal.pool.contextLanguage wholeEmpty.expr true true := by
    have hcontext : Pieces.InContext [] 0 0 true true := Pieces.inContext_decide ⟨Nat.le_refl 0, Nat.le_refl 0⟩
    rw [hext.contextLanguage_eq has_wholeEmpty]
    exact ⟨[], 0, 0, hcontext, rfl, (matches_wholeEmpty [] 0 0 hcontext.within).2 rfl⟩
  have hfront : [] ∉ removal.pool.contextLanguage wholeEmpty.expr true false := by
    rw [hext.contextLanguage_eq has_wholeEmpty]
    intro hparts
    obtain ⟨input, i, j, hcontext, _, hmatch⟩ := hparts
    obtain rfl := (matches_wholeEmpty input i j hcontext.within).1 hmatch
    exact Bool.false_ne_true (hcontext.end_iff.1 (Nat.le_zero.1 hcontext.within.2))
  obtain ⟨_, _, _, _, a, ha, htrue, _⟩ := rewriting_is_exact hreached (hext.has has_wholeEmpty) true true
  obtain ⟨_, _, _, _, b, hb, _, hfalse⟩ := rewriting_is_exact hreached (hext.has has_wholeEmpty) true false
  obtain ⟨afterA, hrunA, _⟩ := ha.exact
  obtain ⟨afterB, hrunB, _⟩ := hb.exact
  rw [htrue hwhole] at hrunA
  rw [hfalse hfront] at hrunB
  exact ⟨removal, d, hrun, ⟨afterA, hrunA⟩, afterB, hrunB⟩

end Removal

end RegexAlgebra
