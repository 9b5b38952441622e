import RegexAlgebra.Expr.Derivative
import RegexAlgebra.Proofs.Languages
import RegexAlgebra.Proofs.Sessions

/-! # Nullability and derivatives

Nullability and the derivative are read off the nodes, one layer after another; the derivative passes through the
constructors at each layer, whose answers have the right language in every pool. An expression without anchors has both,
and they are what the language says. Only an anchor makes either fail.
-/

namespace RegexAlgebra

variable {pool later : Pool} {e d : Expr} {c : Char}

/-! ## Nullability -/

namespace Pool

private theorem both_of_ok {x y : Except Error Bool} {a b : Bool} (ha : x = .ok a) (hb : y = .ok b) :
    (do if ← x then y else return false) = Except.ok (a && b) := by
  rw [ha, hb]
  cases a <;> rfl

theorem isNullable_of_anchorFree (hfree : pool.AnchorFree e) :
    ∃ b, pool.isNullable e = .ok b ∧ (b = true ↔ [] ∈ pool.language e) := by
  induction e using operandInduction pool with
  | step e ih =>
      have hops := (anchorFree_iff.1 hfree).2
      have hleaf := (anchorFree_iff.1 hfree).1
      rw [isNullable, language_eq]
      split <;> rename_i hn <;> rw [hn] at hops hleaf ih <;> rw [hn]
      · exact ⟨false, rfl, iff_of_false Bool.false_ne_true (Language.notMem_zero [])⟩
      · refine ⟨false, rfl, iff_of_false Bool.false_ne_true ?_⟩
        intro hparts
        obtain ⟨c, _, hword⟩ := hparts
        cases hword
      · exact ⟨true, rfl, iff_of_true rfl rfl⟩
      · cases hleaf
      · cases hleaf
      · rename_i l r
        obtain ⟨hl, hr⟩ := Node.forall_operands_binary.1 hops
        obtain ⟨ihl, ihr⟩ := Node.forall_operands_binary.1 ih
        obtain ⟨a, ha, hamem⟩ := ihl hl
        obtain ⟨b, hb, hbmem⟩ := ihr hr
        refine ⟨a || b, by rw [ha, hb]; rfl, ?_⟩
        rw [Bool.or_eq_true, hamem, hbmem]
        exact Iff.rfl
      · rename_i l r
        obtain ⟨hl, hr⟩ := Node.forall_operands_binary.1 hops
        obtain ⟨ihl, ihr⟩ := Node.forall_operands_binary.1 ih
        obtain ⟨a, ha, hamem⟩ := ihl hl
        obtain ⟨b, hb, hbmem⟩ := ihr hr
        refine ⟨a && b, both_of_ok ha hb, ?_⟩
        rw [Bool.and_eq_true, hamem, hbmem]
        exact Iff.rfl
      · rename_i l r
        obtain ⟨hl, hr⟩ := Node.forall_operands_binary.1 hops
        obtain ⟨ihl, ihr⟩ := Node.forall_operands_binary.1 ih
        obtain ⟨a, ha, hamem⟩ := ihl hl
        obtain ⟨b, hb, hbmem⟩ := ihr hr
        refine ⟨a && b, both_of_ok ha hb, ?_⟩
        rw [Bool.and_eq_true, hamem, hbmem]
        exact nil_mem_mul.symm
      · exact ⟨true, rfl, iff_of_true rfl (Language.nil_mem_kstar _)⟩
      · rename_i s
        obtain ⟨a, ha, hamem⟩ := Node.forall_operands_unary.1 ih (Node.forall_operands_unary.1 hops)
        refine ⟨!a, by rw [ha]; rfl, ?_⟩
        rw [Bool.not_eq_true', ← Bool.not_eq_true, hamem]
        exact Iff.rfl

theorem nullable_of_anchorFree (hfree : pool.AnchorFree e) :
    ∃ b, pool.nullable e = .ok (.ofBool b) ∧ (b = true ↔ [] ∈ pool.language e) := by
  obtain ⟨b, hb, hmem⟩ := isNullable_of_anchorFree hfree
  exact ⟨b, by rw [nullable, hb]; rfl, hmem⟩

theorem nil_mem_of_isNullable {b : Bool} (hfree : pool.AnchorFree e) (h : pool.isNullable e = .ok b) :
    b = true ↔ [] ∈ pool.language e := by
  obtain ⟨b', hb, hmem⟩ := isNullable_of_anchorFree hfree
  rw [hb] at h
  cases h
  exact hmem

theorem not_anchorFree_of_isNullable {error : Error} (h : pool.isNullable e = .error error) :
    ¬ pool.AnchorFree e := by
  intro hfree
  obtain ⟨b, hb, _⟩ := isNullable_of_anchorFree hfree
  rw [hb] at h
  cases h

/-! ## Derivatives -/

/-- In the later pool `d` is a derivative of `e`, which is an expression of the earlier one. -/
structure IsDerivative (pool : Pool) (e : Expr) (c : Char) (d : Expr) (later : Pool) : Prop where
  has : later.Has d
  anchorFree : pool.AnchorFree e → later.AnchorFree d
  language_eq : pool.AnchorFree e → later.language d = after c (pool.language e)

end Pool

namespace Expr

open Pool

/-- One layer of the derivative: what it does with the node of `e`. -/
def derivativeOf (e : Expr) (c : Char) : Node → Session Expr
  | .empty => return .empty
  | .epsilon => return .empty
  | .range interval => return .ofBool (interval.contains c)
  | .startAnchor => throw (.anchorReached .derivative)
  | .endAnchor => throw (.anchorReached .derivative)
  | .binary .union left right => do
    let a ← left.derivative c
    let b ← right.derivative c
    Session.build (·.binary .union a b)
  | .binary .intersect left right => do
    let a ← left.derivative c
    let b ← right.derivative c
    Session.build (·.binary .intersect a b)
  | .binary .concat left right => do
    let a ← left.derivative c
    let first ← Session.build (·.binary .concat a right)
    if ← Session.ask (·.isNullable left) then
      let b ← right.derivative c
      Session.build (·.binary .union first b)
    else
      return first
  | .unary .star sub => do
    let a ← sub.derivative c
    Session.build (·.binary .concat a e)
  | .unary .negate sub => do
    let a ← sub.derivative c
    Session.build (·.unary .negate a)

theorem derivative_run (e : Expr) (c : Char) (pool : Pool) :
    e.derivative c pool = e.derivativeOf c (pool.node e) pool := by
  have hget : (get : Session Pool) pool = .ok pool pool := rfl
  rw [derivative]
  simp only [bind, EStateM.bind, hget]
  refine congrFun ?_ pool
  split <;> rename_i hn <;> rw [hn] <;> rfl

end Expr

namespace Pool

variable {start middle : Pool} {l r a b : Expr} {op : BinaryOp}

theorem IsDerivative.mono (h : IsDerivative pool e c d middle) (hext : Extends middle later) :
    IsDerivative pool e c d later where
  has := hext.has h.has
  anchorFree := fun hfree => (hext.anchorFree_iff h.has).2 (h.anchorFree hfree)
  language_eq := fun hfree => by rw [hext.language_eq h.has (h.anchorFree hfree), h.language_eq hfree]

/-- The leaf that stands for a truth value is a derivative of what holds only words of one symbol. -/
private theorem isDerivative_ofBool {p : Bool} (h : later.Sound)
    (hlanguage : after c (pool.language e) = if p = true then 1 else 0) : IsDerivative pool e c (.ofBool p) later where
  has := h.has_ofBool p
  anchorFree := fun _ => h.anchorFree_ofBool p
  language_eq := fun _ => by
    rw [hlanguage]
    cases p
    · exact language_of_node h.leaves.1
    · exact language_of_node h.leaves.2.1

private theorem after_range (pool : Pool) (interval : Interval) :
    after c (pool.nodeLanguage (.range interval)) = if interval.contains c = true then 1 else 0 := by
  refine Language.ext fun word => ?_
  rw [mem_after]
  split
  · rename_i hc
    rw [Interval.contains_iff] at hc
    rw [Language.mem_one]
    constructor
    · intro hparts
      obtain ⟨d, _, hword⟩ := hparts
      exact (List.cons_eq_cons.1 hword).2
    · intro hword
      exact ⟨c, hc, by rw [hword]⟩
  · rename_i hc
    rw [Interval.contains_iff] at hc
    refine iff_of_false ?_ (Language.notMem_zero word)
    intro hparts
    obtain ⟨d, hd, hword⟩ := hparts
    exact hc ((List.cons_eq_cons.1 hword).1 ▸ hd)

/-- The derivatives of the operands make the derivative of a union or an intersection. -/
private theorem isDerivative_of_both {built : Built} (hop : op ≠ .concat) (hn : pool.node e = .binary op l r)
    (ha : IsDerivative pool l c a middle) (hb : IsDerivative pool r c b middle)
    (hsettles : middle.Settles (.binary op a b) built) : IsDerivative pool e c built.expr built.pool where
  has := hsettles.answers.has
  anchorFree := fun hfree => by
    obtain ⟨hl, hr⟩ := (anchorFree_of_binary hn).1 hfree
    exact (hsettles.language_binary (ha.anchorFree hl) (hb.anchorFree hr)).1
  language_eq := fun hfree => by
    obtain ⟨hl, hr⟩ := (anchorFree_of_binary hn).1 hfree
    rw [(hsettles.language_binary (ha.anchorFree hl) (hb.anchorFree hr)).2, ha.language_eq hl, hb.language_eq hr,
      language_of_node hn]
    cases op with
    | union => rfl
    | intersect => rfl
    | concat => exact absurd rfl hop

/-- What the derivative of the left operand of a concatenation comes to with the right operand behind it. -/
private theorem language_of_first {built : Built} (hn : pool.node e = .binary .concat l r) (hr : pool.Has r)
    (hext : Extends pool middle) (ha : IsDerivative pool l c a middle)
    (hsettles : middle.Settles (.binary .concat a r) built) (hfree : pool.AnchorFree e) :
    built.pool.AnchorFree built.expr ∧
      built.pool.language built.expr = after c (pool.language l) * pool.language r := by
  obtain ⟨hl, hfr⟩ := (anchorFree_of_binary hn).1 hfree
  have hfirst := hsettles.language_binary (ha.anchorFree hl) ((hext.anchorFree_iff hr).2 hfr)
  rw [ha.language_eq hl, hext.language_eq hr hfr] at hfirst
  exact hfirst

private theorem after_concat (hn : pool.node e = .binary .concat l r) {word : List Char} :
    word ∈ after c (pool.language e) ↔
      word ∈ after c (pool.language l) * pool.language r ∨
        [] ∈ pool.language l ∧ word ∈ after c (pool.language r) := by
  rw [language_of_node hn]
  exact mem_after_mul

/-- Where the left operand does not match the empty word the right operand adds nothing. -/
private theorem isDerivative_of_left {built : Built} (hn : pool.node e = .binary .concat l r) (hr : pool.Has r)
    (hext : Extends pool middle) (ha : IsDerivative pool l c a middle)
    (hleft : pool.AnchorFree l → [] ∉ pool.language l) (hsettles : middle.Settles (.binary .concat a r) built) :
    IsDerivative pool e c built.expr built.pool where
  has := hsettles.answers.has
  anchorFree := fun hfree => (language_of_first hn hr hext ha hsettles hfree).1
  language_eq := fun hfree => by
    have hl := ((anchorFree_of_binary hn).1 hfree).1
    rw [(language_of_first hn hr hext ha hsettles hfree).2]
    refine Language.ext fun word => ?_
    rw [after_concat hn, or_iff_left]
    intro h
    exact hleft hl h.1

/-- Where the left operand matches the empty word the derivative of the right operand joins in. -/
private theorem isDerivative_of_sum {first built : Built} (hn : pool.node e = .binary .concat l r)
    (hr : pool.Has r) (hext : Extends pool middle) (ha : IsDerivative pool l c a middle)
    (hleft : pool.AnchorFree l → [] ∈ pool.language l) (hfirst : middle.Settles (.binary .concat a r) first)
    (hext' : Extends first.pool later) (hb : IsDerivative pool r c b later)
    (hsettles : later.Settles (.binary .union first.expr b) built) :
    IsDerivative pool e c built.expr built.pool where
  has := hsettles.answers.has
  anchorFree := fun hfree => by
    have hfr := ((anchorFree_of_binary hn).1 hfree).2
    have hf := (language_of_first hn hr hext ha hfirst hfree).1
    exact (hsettles.language_binary ((hext'.anchorFree_iff hfirst.answers.has).2 hf) (hb.anchorFree hfr)).1
  language_eq := fun hfree => by
    obtain ⟨hl, hfr⟩ := (anchorFree_of_binary hn).1 hfree
    obtain ⟨hf, hlanguage⟩ := language_of_first hn hr hext ha hfirst hfree
    rw [(hsettles.language_binary ((hext'.anchorFree_iff hfirst.answers.has).2 hf) (hb.anchorFree hfr)).2,
      hext'.language_eq hfirst.answers.has hf, hlanguage, hb.language_eq hfr]
    refine Language.ext fun word => ?_
    rw [after_concat hn]
    exact or_congr_right (and_iff_right (hleft hl)).symm

private theorem isDerivative_of_star {built : Built} (hn : pool.node e = .unary .star l) (he : pool.Has e)
    (hext : Extends pool middle) (ha : IsDerivative pool l c a middle)
    (hsettles : middle.Settles (.binary .concat a e) built) : IsDerivative pool e c built.expr built.pool where
  has := hsettles.answers.has
  anchorFree := fun hfree => by
    have hl := (anchorFree_of_unary hn).1 hfree
    exact (hsettles.language_binary (ha.anchorFree hl) ((hext.anchorFree_iff he).2 hfree)).1
  language_eq := fun hfree => by
    have hl := (anchorFree_of_unary hn).1 hfree
    rw [(hsettles.language_binary (ha.anchorFree hl) ((hext.anchorFree_iff he).2 hfree)).2, ha.language_eq hl,
      hext.language_eq he hfree, language_of_node hn]
    exact after_kstar.symm

private theorem isDerivative_of_negate {built : Built} (hn : pool.node e = .unary .negate l)
    (ha : IsDerivative pool l c a middle) (hsettles : middle.Settles (.unary .negate a) built) :
    IsDerivative pool e c built.expr built.pool where
  has := hsettles.answers.has
  anchorFree := fun hfree => (hsettles.language_unary (ha.anchorFree ((anchorFree_of_unary hn).1 hfree))).1
  language_eq := fun hfree => by
    have hl := (anchorFree_of_unary hn).1 hfree
    rw [(hsettles.language_unary (ha.anchorFree hl)).2, ha.language_eq hl, language_of_node hn]
    rfl

end Pool

namespace Expr

open Pool

variable {start : Pool} {l r : Expr}

/-- The derivative of `o` can be taken on the way to that of `e`, in any pool that the first one has grown into. -/
private def Derives (pool : Pool) (e : Expr) (c : Char) (o : Expr) : Prop :=
  ∀ start, pool.Grows start → Session.Ends (o.derivative c) start (IsDerivative pool o c) fun _ => ¬ pool.AnchorFree e

private theorem ends_both {op : BinaryOp} (h : pool.Sound) (hop : op ≠ .concat) (hn : pool.node e = .binary op l r)
    (hgrows : pool.Grows start) (hl : Derives pool e c l) (hr : Derives pool e c r) :
    Session.Ends (e.derivativeOf c (.binary op l r)) start (IsDerivative pool e c) fun _ => ¬ pool.AnchorFree e := by
  have hends : Session.Ends (do
      let a ← l.derivative c
      let b ← r.derivative c
      Session.build (·.binary op a b)) start (IsDerivative pool e c) fun _ => ¬ pool.AnchorFree e := by
    refine (hl start hgrows).bind fun a middle hmiddle ha => ?_
    refine (hr middle (hgrows.trans hmiddle)).bind fun b later hlater hb => ?_
    have hsound := (hgrows.trans hmiddle).sound h
    have ha' := ha.mono (hlater.extends_pool hsound)
    exact (Session.ends_binary (hlater.sound hsound) op ha'.has hb.has).mono fun _ _ _ hsettles =>
      isDerivative_of_both hop hn ha' hb hsettles
  cases op with
  | union => exact hends
  | intersect => exact hends
  | concat => exact absurd rfl hop

private theorem ends_concat (h : pool.Sound) (he : pool.Has e) (hn : pool.node e = .binary .concat l r)
    (hgrows : pool.Grows start) (hl : Derives pool e c l) (hr : Derives pool e c r) :
    Session.Ends (e.derivativeOf c (.binary .concat l r)) start (IsDerivative pool e c)
      fun _ => ¬ pool.AnchorFree e := by
  obtain ⟨hhasl, hhasr⟩ := has_of_binary hn he
  refine (hl start hgrows).bind fun a middle hmiddle ha => ?_
  have hsound := (hgrows.trans hmiddle).sound h
  have hext := (hgrows.trans hmiddle).extends_pool h
  refine (Session.ends_binary hsound .concat ha.has (hext.has hhasr)).bind fun first later hlater hfirst => ?_
  have hgrows' := hgrows.trans (hmiddle.trans hlater)
  have hfreel := (hgrows'.extends_pool h).anchorFree_iff hhasl
  refine ((Session.ends_ask (·.isNullable l) later).mono_fails fun _ herror hfree => ?_).bind
    fun nullable _ _ hnullable => ?_
  · exact not_anchorFree_of_isNullable herror (hfreel.2 ((anchorFree_of_binary hn).1 hfree).1)
  · obtain ⟨rfl, hnullable⟩ := hnullable
    have hleft : pool.AnchorFree l → (nullable = true ↔ [] ∈ pool.language l) := by
      intro hl
      rw [nil_mem_of_isNullable (hfreel.2 hl) hnullable, (hgrows'.extends_pool h).language_eq hhasl hl]
    cases nullable with
    | false => exact .pure (isDerivative_of_left hn hhasr hext ha (fun hl => by simp [← hleft hl]) hfirst)
    | true =>
        refine (hr _ hgrows').bind fun b last hlast hb => ?_
        have hextb := hlast.extends_pool hfirst.sound
        have hfirst' := hextb.has hfirst.answers.has
        refine (Session.ends_binary (hlast.sound hfirst.sound) .union hfirst' hb.has).mono fun _ _ _ hsettles => ?_
        exact isDerivative_of_sum hn hhasr hext ha (fun hl => (hleft hl).1 rfl) hfirst hextb hb hsettles

/-- The derivative of an expression, taken in any pool that its own has grown into. It fails at an anchor only. -/
theorem derivative_ends (h : pool.Sound) (he : pool.Has e) (c : Char) (hgrows : pool.Grows start) :
    Session.Ends (e.derivative c) start (IsDerivative pool e c) fun _ => ¬ pool.AnchorFree e := by
  induction e using operandInduction pool generalizing start with
  | step e ih =>
      have hsound := hgrows.sound h
      have hext := hgrows.extends_pool h
      have hsub : ∀ o ∈ (pool.node e).operands, Derives pool e c o := by
        intro o ho start hgrows
        exact (ih o ho (he.operand ho) hgrows).mono_fails fun _ hnot hfree => hnot (hfree.operand ho)
      refine Ends.congr (derivative_run e c start) ?_
      rw [hext.node_eq e he]
      cases hn : pool.node e with
      | empty => exact .pure (isDerivative_ofBool hsound (p := false) (by rw [language_of_node hn]; rfl))
      | epsilon => exact .pure (isDerivative_ofBool hsound (p := false) (by rw [language_of_node hn]; exact after_one))
      | range interval => exact .pure (isDerivative_ofBool hsound (by rw [language_of_node hn, after_range]))
      | startAnchor => exact .throw fun hfree => by simpa [hn, Node.isAnchor] using (anchorFree_iff.1 hfree).1
      | endAnchor => exact .throw fun hfree => by simpa [hn, Node.isAnchor] using (anchorFree_iff.1 hfree).1
      | binary op l r =>
          rw [hn] at hsub
          obtain ⟨hl, hr⟩ := Node.forall_operands_binary.1 hsub
          by_cases hop : op = .concat
          · subst hop
            exact ends_concat h he hn hgrows hl hr
          · exact ends_both h hop hn hgrows hl hr
      | unary op s =>
          rw [hn] at hsub
          have hs := Node.forall_operands_unary.1 hsub start hgrows
          cases op with
          | star =>
              refine hs.bind fun a middle hmiddle ha => ?_
              have hext' := (hgrows.trans hmiddle).extends_pool h
              exact (Session.ends_binary (hmiddle.sound hsound) .concat ha.has (hext'.has he)).mono
                fun _ _ _ hsettles => isDerivative_of_star hn he hext' ha hsettles
          | negate =>
              refine hs.bind fun a middle hmiddle ha => ?_
              exact (Session.ends_unary (hmiddle.sound hsound) .negate ha.has).mono fun _ _ _ hsettles =>
                isDerivative_of_negate hn ha hsettles

/-! ## Words -/

/-- In the later pool `d` is what is left of `e` once a word is read. -/
structure IsResidual (pool : Pool) (e : Expr) (word : List Char) (d : Expr) (later : Pool) : Prop where
  has : later.Has d
  anchorFree : pool.AnchorFree e → later.AnchorFree d
  mem_iff : pool.AnchorFree e → ∀ rest, rest ∈ later.language d ↔ word ++ rest ∈ pool.language e

theorem residual_ends (h : pool.Sound) (he : pool.Has e) (word : List Char) :
    Session.Ends (e.residual word) pool (IsResidual pool e word) fun _ => ¬ pool.AnchorFree e := by
  induction word generalizing pool e with
  | nil => exact .pure ⟨he, fun hfree => hfree, fun _ _ => Iff.rfl⟩
  | cons c word ih =>
      refine (derivative_ends h he c .refl).bind fun d middle hmiddle hd => ?_
      have hrest := ih (hmiddle.sound h) hd.has
      refine (hrest.mono_fails fun _ hnot hfree => hnot (hd.anchorFree hfree)).mono fun last later _ hlast => ?_
      refine ⟨hlast.has, fun hfree => hlast.anchorFree (hd.anchorFree hfree), fun hfree rest => ?_⟩
      rw [hlast.mem_iff (hd.anchorFree hfree), hd.language_eq hfree, mem_after, List.cons_append]

theorem isMatch_ends (h : pool.Sound) (he : pool.Has e) (word : List Char) :
    Session.Ends (e.isMatch word) pool (fun b _ => pool.AnchorFree e → (b = true ↔ word ∈ pool.language e))
      fun _ => ¬ pool.AnchorFree e := by
  refine (residual_ends h he word).bind fun d later _ hd => ?_
  refine ((Session.ends_ask (·.isNullable d) later).mono_fails fun _ herror hfree => ?_).mono
    fun b _ _ hb hfree => ?_
  · exact not_anchorFree_of_isNullable herror (hd.anchorFree hfree)
  · obtain ⟨rfl, hb⟩ := hb
    rw [nil_mem_of_isNullable (hd.anchorFree hfree) hb, hd.mem_iff hfree, List.append_nil]

end Expr

end RegexAlgebra
