import RegexAlgebra.Pool.Rules
import RegexAlgebra.Proofs.Meaning

/-! # The rules keep the meaning

What a rule makes of a request is right whenever the requests it leads to are answered right. The statement is about
every pool that the present one grows into, because other requests may be answered before the reduction is carried out.
-/

namespace RegexAlgebra

/-- The reduction answers the request right, provided that the requests it leads to are. -/
def Reduction.Keeps (pool : Pool) (op : BinaryOp) (e f : Expr) : Reduction → Prop
  | .done answer => pool.Answers (.binary op e f) answer
  | .range interval => ∀ later answer, Pool.Extends pool later →
      later.Answers (.range interval) answer → later.Answers (.binary op e f) answer
  | .swap => ∀ later answer, Pool.Extends pool later →
      later.Answers (.binary op f e) answer → later.Answers (.binary op e f) answer
  | .regroup first second third => pool.Has first ∧ pool.Has second ∧ pool.Has third ∧
      ∀ later rest answer, Pool.Extends pool later → later.Answers (.binary op second third) rest →
        later.Answers (.binary op first rest) answer → later.Answers (.binary op e f) answer
  | .keep => True

namespace Interval

theorem mem_of_containsInterval {i j : Interval} (h : i.containsInterval j = true) {c : Char} (hc : c ∈ j) :
    c ∈ i := by
  simp only [containsInterval, isEmpty, Bool.or_eq_true, Bool.and_eq_true, decide_eq_true_eq,
    Symbol.lt_iff_position_lt, Symbol.le_iff_position_le] at h
  simp only [mem_iff, Symbol.le_iff_position_le] at hc ⊢
  omega

end Interval

namespace Pool

variable {pool later : Pool} {op : BinaryOp} {e f a l r : Expr} {input : List Char}

theorem Answers.binary (he : pool.Has e) (hf : pool.Has f) (ha : pool.Has a)
    (hagree : ∀ input, Pieces.Agree input (pool.Matches input a)
      (op.pieces (pool.Matches input e) (pool.Matches input f)))
    (hfree : pool.AnchorFree e → pool.AnchorFree f → pool.AnchorFree a) :
    pool.Answers (.binary op e f) a where
  operands_has := Node.forall_operands_binary.2 ⟨he, hf⟩
  has := ha
  agree := hagree
  anchorFree := fun _ hops => hfree (Node.forall_operands_binary.1 hops).1 (Node.forall_operands_binary.1 hops).2

theorem Answers.has_left (h : pool.Answers (.binary op e f) a) : pool.Has e :=
  (Node.forall_operands_binary.1 h.operands_has).1

theorem Answers.has_right (h : pool.Answers (.binary op e f) a) : pool.Has f :=
  (Node.forall_operands_binary.1 h.operands_has).2

theorem Answers.anchorFree_binary (h : pool.Answers (.binary op e f) a) (he : pool.AnchorFree e)
    (hf : pool.AnchorFree f) : pool.AnchorFree a :=
  h.anchorFree rfl (Node.forall_operands_binary.2 ⟨he, hf⟩)

theorem has_of_binary (hn : pool.node e = .binary op l r) (he : pool.Has e) : pool.Has l ∧ pool.Has r :=
  ⟨he.operand (by simp [hn, Node.operands]), he.operand (by simp [hn, Node.operands])⟩

/-! ## Answers that are there already -/

theorem matches_of_isAll (h : pool.Sound) (hall : pool.isAll e = true) :
    pool.Matches input e = fun _ _ => True := by
  rw [isAll, beq_iff_eq, Node.asUnary?_eq_some_iff] at hall
  rw [matches_of_node hall, NodeMatches, h.matches_empty]
  funext i j
  exact propext (iff_of_true not_false trivial)

private theorem answers_left (he : pool.Has e) (hf : pool.Has f)
    (hagree : ∀ input, Pieces.Agree input (pool.Matches input e)
      (op.pieces (pool.Matches input e) (pool.Matches input f))) : pool.Answers (.binary op e f) e :=
  .binary he hf he hagree fun hfree _ => hfree

private theorem answers_right (he : pool.Has e) (hf : pool.Has f)
    (hagree : ∀ input, Pieces.Agree input (pool.Matches input f)
      (op.pieces (pool.Matches input e) (pool.Matches input f))) : pool.Answers (.binary op e f) f :=
  .binary he hf hf hagree fun _ hfree => hfree

private theorem answers_empty (h : pool.Sound) (he : pool.Has e) (hf : pool.Has f)
    (hagree : ∀ input, Pieces.Agree input (fun _ _ => False)
      (op.pieces (pool.Matches input e) (pool.Matches input f))) : pool.Answers (.binary op e f) .empty := by
  refine .binary he hf h.has_empty (fun input => ?_) fun _ _ => h.anchorFree_empty
  rw [h.matches_empty]
  exact hagree input

/-- A union with what matches less is the other operand. -/
private theorem answers_union_left (he : pool.Has e) (hf : pool.Has f)
    (hle : ∀ input i j, pool.Matches input f i j → pool.Matches input e i j) :
    pool.Answers (.binary .union e f) e :=
  answers_left he hf fun input _ _ _ => (or_iff_left_of_imp (hle input _ _)).symm

private theorem answers_union_right (he : pool.Has e) (hf : pool.Has f)
    (hle : ∀ input i j, pool.Matches input e i j → pool.Matches input f i j) :
    pool.Answers (.binary .union e f) f :=
  answers_right he hf fun input _ _ _ => (or_iff_right_of_imp (hle input _ _)).symm

/-- An intersection with what matches more is the other operand. -/
private theorem answers_intersect_left (he : pool.Has e) (hf : pool.Has f)
    (hle : ∀ input i j, pool.Matches input e i j → pool.Matches input f i j) :
    pool.Answers (.binary .intersect e f) e :=
  answers_left he hf fun input _ _ _ => (and_iff_left_of_imp (hle input _ _)).symm

private theorem answers_intersect_right (he : pool.Has e) (hf : pool.Has f)
    (hle : ∀ input i j, pool.Matches input f i j → pool.Matches input e i j) :
    pool.Answers (.binary .intersect e f) f :=
  answers_right he hf fun input _ _ _ => (and_iff_right_of_imp (hle input _ _)).symm

private theorem matches_le_of_contains {i j : Interval} (he : pool.node e = .range i) (hf : pool.node f = .range j)
    (hsub : i.containsInterval j = true) (input : List Char) (p q : Nat) (h : pool.Matches input f p q) :
    pool.Matches input e p q := by
  rw [matches_of_node hf] at h
  rw [matches_of_node he]
  obtain ⟨hq, c, hget, hc⟩ := h
  exact ⟨hq, c, hget, Interval.mem_of_containsInterval hsub hc⟩

/-! ## Regrouping -/

/-- A chain or a concatenation on the left is taken apart. -/
private theorem keeps_regroup_left (hn : pool.node e = .binary op l r) (he : pool.Has e) (hf : pool.Has f) :
    (Reduction.regroup l r f).Keeps pool op e f := by
  obtain ⟨hl, hr⟩ := has_of_binary hn he
  refine ⟨hl, hr, hf, fun later rest answer hext hrest hanswer => ?_⟩
  have hn' : later.node e = .binary op l r := (hext.node_eq e he).trans hn
  refine .binary (hext.has he) (hext.has hf) hanswer.has (fun input => ?_) fun hfe hff => ?_
  · have hassoc : Pieces.Agree input
        (op.pieces (later.Matches input l) (op.pieces (later.Matches input r) (later.Matches input f)))
        (op.pieces (later.Matches input e) (later.Matches input f)) := by
      rw [matches_of_node hn']
      exact .of_iff fun i j => (Pieces.pieces_assoc op).symm
    exact ((hanswer.agree input).trans (.binary op (.refl input _) (hrest.agree input))).trans hassoc
  · obtain ⟨hfl, hfr⟩ := (anchorFree_of_binary hn').1 hfe
    exact hanswer.anchorFree_binary hfl (hrest.anchorFree_binary hfr hff)

/-- An element is inserted into the chain on the right. -/
private theorem keeps_regroup_right (hop : op ≠ .concat) (hn : pool.node f = .binary op l r) (he : pool.Has e)
    (hf : pool.Has f) : (Reduction.regroup l e r).Keeps pool op e f := by
  obtain ⟨hl, hr⟩ := has_of_binary hn hf
  refine ⟨hl, he, hr, fun later rest answer hext hrest hanswer => ?_⟩
  have hn' : later.node f = .binary op l r := (hext.node_eq f hf).trans hn
  refine .binary (hext.has he) (hext.has hf) hanswer.has (fun input => ?_) fun hfe hff => ?_
  · have hcomm : Pieces.Agree input
        (op.pieces (later.Matches input l) (op.pieces (later.Matches input e) (later.Matches input r)))
        (op.pieces (later.Matches input e) (later.Matches input f)) := by
      rw [matches_of_node hn']
      exact .of_iff fun i j => Pieces.pieces_left_comm hop
    exact ((hanswer.agree input).trans (.binary op (.refl input _) (hrest.agree input))).trans hcomm
  · obtain ⟨hfl, hfr⟩ := (anchorFree_of_binary hn').1 hff
    exact hanswer.anchorFree_binary hfl (hrest.anchorFree_binary hfe hfr)

private theorem keeps_swap (hop : op ≠ .concat) : Reduction.swap.Keeps pool op e f := by
  intro later answer hext hanswer
  refine .binary hanswer.has_right hanswer.has_left hanswer.has (fun input => ?_) fun hfe hff => ?_
  · exact (hanswer.agree input).trans (.of_iff fun i j => Pieces.pieces_comm hop)
  · exact hanswer.anchorFree_binary hff hfe

/-- An element that heads the chain on the right is absorbed by it. -/
private theorem keeps_head (hop : op ≠ .concat) (hn : pool.node f = .binary op e r) (he : pool.Has e)
    (hf : pool.Has f) : (Reduction.done f).Keeps pool op e f := by
  refine answers_right he hf fun input => ?_
  rw [matches_of_node hn]
  refine .of_iff fun i j => ?_
  cases op with
  | union => exact or_self_left.symm
  | intersect => exact and_self_left.symm
  | concat => exact absurd rfl hop

theorem chainRule_keeps (op : BinaryOp) (hop : op ≠ .concat) (he : pool.Has e) (hf : pool.Has f) :
    (pool.chainRule op e f).Keeps pool op e f := by
  unfold chainRule
  split
  · rename_i head tail hn
    exact keeps_regroup_left (Node.asBinary?_eq_some_iff.1 hn) he hf
  · split
    · rename_i head tail hn
      rw [Node.asBinary?_eq_some_iff] at hn
      split
      · rename_i heq
        exact keeps_head hop (heq ▸ hn) he hf
      · split
        · trivial
        · exact keeps_regroup_right hop hn he hf
    · split
      · exact keeps_swap hop
      · trivial

/-! ## The rules of each operator -/

theorem unionRule_keeps (h : pool.Sound) (he : pool.Has e) (hf : pool.Has f) :
    (pool.unionRule e f).Keeps pool .union e f := by
  have hchain := chainRule_keeps .union (by simp) he hf
  unfold unionRule
  split
  · rename_i heq
    subst heq
    exact answers_union_left he hf fun _ _ _ hm => hm
  · split
    · rename_i heq
      subst heq
      refine answers_union_right he hf fun input i j hm => ?_
      rw [h.matches_empty] at hm
      exact hm.elim
    · split
      · rename_i heq
        subst heq
        refine answers_union_left he hf fun input i j hm => ?_
        rw [h.matches_empty] at hm
        exact hm.elim
      · split
        · rename_i hall
          refine answers_union_left he hf fun input i j _ => ?_
          rw [matches_of_isAll h hall]
          trivial
        · split
          · rename_i hall
            refine answers_union_right he hf fun input i j _ => ?_
            rw [matches_of_isAll h hall]
            trivial
          · split
            · rename_i i j hi hj
              rw [Node.asRange?_eq_some_iff] at hi hj
              split
              · rename_i hsub
                exact answers_union_left he hf (matches_le_of_contains hi hj hsub)
              · split
                · rename_i hsub
                  exact answers_union_right he hf (matches_le_of_contains hj hi hsub)
                · exact hchain
            · exact hchain

/-- The intersection of two ranges is answered by the range of what they have in common. -/
private theorem keeps_common_range {i j : Interval} (hi : pool.node e = .range i) (hj : pool.node f = .range j)
    (he : pool.Has e) (hf : pool.Has f) : (Reduction.range (i ∩ j)).Keeps pool .intersect e f := by
  intro later answer hext hanswer
  have hi' : later.node e = .range i := (hext.node_eq e he).trans hi
  have hj' : later.node f = .range j := (hext.node_eq f hf).trans hj
  refine .binary (hext.has he) (hext.has hf) hanswer.has (fun input => (hanswer.agree input).trans ?_) fun _ _ => ?_
  · rw [matches_of_node hi', matches_of_node hj']
    refine .of_iff fun p q => ?_
    constructor
    · intro hparts
      obtain ⟨hq, c, hget, hc⟩ := hparts
      obtain ⟨hci, hcj⟩ := Interval.mem_inter.1 hc
      exact ⟨⟨hq, c, hget, hci⟩, hq, c, hget, hcj⟩
    · intro hparts
      obtain ⟨⟨hq, c, hget, hci⟩, _, d, hget', hdj⟩ := hparts
      obtain rfl : c = d := Option.some.inj (hget.symm.trans hget')
      exact ⟨hq, c, hget, Interval.mem_inter.2 ⟨hci, hdj⟩⟩
  · exact hanswer.anchorFree rfl (by simp [Node.operands])

theorem intersectRule_keeps (h : pool.Sound) (he : pool.Has e) (hf : pool.Has f) :
    (pool.intersectRule e f).Keeps pool .intersect e f := by
  have hchain := chainRule_keeps .intersect (by simp) he hf
  unfold intersectRule
  split
  · rename_i heq
    subst heq
    exact answers_intersect_left he hf fun _ _ _ hm => hm
  · split
    · rename_i heq
      refine answers_empty h he hf fun input i j _ => iff_of_false not_false fun hm => ?_
      rcases heq with rfl | rfl
      · have hm := hm.1
        rw [h.matches_empty] at hm
        exact hm
      · have hm := hm.2
        rw [h.matches_empty] at hm
        exact hm
    · split
      · rename_i hall
        refine answers_intersect_right he hf fun input i j _ => ?_
        rw [matches_of_isAll h hall]
        trivial
      · split
        · rename_i hall
          refine answers_intersect_left he hf fun input i j _ => ?_
          rw [matches_of_isAll h hall]
          trivial
        · split
          · rename_i i j hi hj
            rw [Node.asRange?_eq_some_iff] at hi hj
            exact keeps_common_range hi hj he hf
          · exact hchain

/-- Nothing on either side of a concatenation leaves nothing. -/
private theorem not_concat_of_empty (h : pool.Sound) (hempty : e = .empty ∨ f = .empty) (i j : Nat) :
    ¬ Pieces.Concat (pool.Matches input e) (pool.Matches input f) i j := by
  intro hparts
  obtain ⟨k, _, _, hle, hri⟩ := hparts
  rcases hempty with rfl | rfl
  · rw [h.matches_empty] at hle
    exact hle
  · rw [h.matches_empty] at hri
    exact hri

theorem concatRule_keeps (h : pool.Sound) (he : pool.Has e) (hf : pool.Has f) :
    (pool.concatRule e f).Keeps pool .concat e f := by
  unfold concatRule
  split
  · rename_i hempty
    exact answers_empty h he hf fun input i j _ => iff_of_false not_false (not_concat_of_empty h hempty i j)
  · split
    · rename_i heq
      subst heq
      refine answers_right he hf fun input i j hij => ?_
      rw [h.matches_epsilon]
      exact (Pieces.concat_eq_right.trans (and_iff_right hij.1)).symm
    · split
      · rename_i heq
        subst heq
        refine answers_left he hf fun input i j hij => ?_
        rw [h.matches_epsilon]
        exact (Pieces.concat_eq_left.trans (and_iff_right hij.1)).symm
      · split
        · rename_i hend
          obtain ⟨hend, hrange⟩ := hend
          obtain ⟨interval, hrange⟩ := Option.isSome_iff_exists.1 hrange
          rw [Node.asRange?_eq_some_iff] at hrange
          refine answers_empty h he hf fun input i j _ => iff_of_false not_false ?_
          rw [matches_of_node hend, matches_of_node hrange]
          -- No symbol stands at the end of the input.
          intro hparts
          obtain ⟨k, _, _, ⟨_, rfl⟩, _, c, hget, _⟩ := hparts
          simp at hget
        · split
          · rename_i hstart
            obtain ⟨hstart, hrange⟩ := hstart
            obtain ⟨interval, hrange⟩ := Option.isSome_iff_exists.1 hrange
            rw [Node.asRange?_eq_some_iff] at hrange
            refine answers_empty h he hf fun input i j _ => iff_of_false not_false ?_
            rw [matches_of_node hstart, matches_of_node hrange]
            -- The start of the input does not follow a symbol.
            intro hparts
            obtain ⟨k, _, _, ⟨hk, _⟩, hk', _⟩ := hparts
            omega
          · split
            · rename_i head tail hn
              exact keeps_regroup_left (Node.asBinary?_eq_some_iff.1 hn) he hf
            · trivial

theorem rule_keeps (h : pool.Sound) (op : BinaryOp) (he : pool.Has e) (hf : pool.Has f) :
    (pool.rule op e f).Keeps pool op e f := by
  cases op with
  | union => exact unionRule_keeps h he hf
  | intersect => exact intersectRule_keeps h he hf
  | concat => exact concatRule_keeps h he hf

end Pool

end RegexAlgebra
