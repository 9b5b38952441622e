import Mathlib.Data.List.Perm.Subperm
import Std.Data.HashMap.Lemmas
import RegexAlgebra.Anchor.Occurrence
import RegexAlgebra.Pool.Descendants
import RegexAlgebra.Pool.Growth

/-! # Expressions without anchors

An expression is free of anchors if none of its descendants is one. Both detectors of anchors decide this: the search
over a stack by an invariant on what it has seen, the recursion with a memory by the soundness of the memory.
-/

namespace RegexAlgebra

theorem Node.length_operands_le (n : Node) : n.operands.length ≤ 2 := by
  cases n <;> simp [operands]

theorem Node.forall_operands_binary {op : BinaryOp} {e f : Expr} {p : Expr → Prop} :
    (∀ o ∈ (binary op e f).operands, p o) ↔ p e ∧ p f := by
  simp [operands]

theorem Node.forall_operands_unary {op : UnaryOp} {e : Expr} {p : Expr → Prop} :
    (∀ o ∈ (unary op e).operands, p o) ↔ p e := by
  simp [operands]

namespace Pool

variable {pool later : Pool} {e o d l r : Expr}

/-- What holds of an expression if it holds of its operands holds of every expression. -/
@[elab_as_elim]
theorem operandInduction (pool : Pool) {motive : Expr → Prop}
    (step : ∀ e, (∀ o ∈ (pool.node e).operands, motive o) → motive e) (e : Expr) : motive e := by
  induction hid : e.id using Nat.strongRecOn generalizing e with
  | ind n ih =>
      refine step e fun o ho => ?_
      exact ih o.id (hid ▸ pool.operand_lt ho) o rfl

theorem IsDescendant.head (ho : pool.IsOperand o e) (h : pool.IsDescendant o d) : pool.IsDescendant e d := by
  induction h with
  | self => exact .operand .self ho
  | operand _ hd ih => exact .operand ih hd

theorem isDescendant_iff :
    pool.IsDescendant e d ↔ d = e ∨ ∃ o ∈ (pool.node e).operands, pool.IsDescendant o d := by
  constructor
  · intro h
    induction h with
    | self => exact Or.inl rfl
    | @operand d o _ hd ih =>
        rcases ih with rfl | ⟨o', ho', hdesc⟩
        · exact Or.inr ⟨o, hd, .self⟩
        · exact Or.inr ⟨o', ho', .operand hdesc hd⟩
  · intro h
    rcases h with rfl | ⟨o, ho, h⟩
    · exact .self
    · exact h.head ho

/-- No anchor stands in the expression. -/
def AnchorFree (pool : Pool) (e : Expr) : Prop :=
  ∀ d, pool.IsDescendant e d → (pool.node d).isAnchor = false

theorem anchorFree_iff :
    pool.AnchorFree e ↔
      (pool.node e).isAnchor = false ∧ ∀ o ∈ (pool.node e).operands, pool.AnchorFree o := by
  constructor
  · intro h
    exact ⟨h e .self, fun o ho d hd => h d (hd.head ho)⟩
  · intro h d hd
    obtain ⟨hnode, hops⟩ := h
    rcases isDescendant_iff.1 hd with rfl | ⟨o, ho, hd⟩
    · exact hnode
    · exact hops o ho d hd

theorem AnchorFree.operand (h : pool.AnchorFree e) (ho : o ∈ (pool.node e).operands) : pool.AnchorFree o :=
  (anchorFree_iff.1 h).2 o ho

theorem anchorFree_of_binary {op : BinaryOp} (hn : pool.node e = .binary op l r) :
    pool.AnchorFree e ↔ pool.AnchorFree l ∧ pool.AnchorFree r := by
  rw [anchorFree_iff, hn]
  simp [Node.isAnchor, Node.operands]

theorem anchorFree_of_unary {op : UnaryOp} (hn : pool.node e = .unary op o) :
    pool.AnchorFree e ↔ pool.AnchorFree o := by
  rw [anchorFree_iff, hn]
  simp [Node.isAnchor, Node.operands]

/-! ## Handles of a grown pool -/

theorem Has.operand (h : pool.Has e) (ho : o ∈ (pool.node e).operands) : pool.Has o :=
  Nat.lt_trans (pool.operand_lt ho) h

theorem Extends.anchorFree_iff (hext : Extends pool later) (he : pool.Has e) :
    later.AnchorFree e ↔ pool.AnchorFree e := by
  induction e using operandInduction pool with
  | step e ih =>
      rw [Pool.anchorFree_iff, Pool.anchorFree_iff, hext.node_eq e he]
      exact and_congr_right fun _ => forall₂_congr fun o ho => ih o ho (he.operand ho)

/-! ## The search -/

/-- What the search has dealt with is no anchor, and has its operands dealt with or waiting. -/
private def Searched (pool : Pool) (stack seen : List Expr) : Prop :=
  ∀ d ∈ seen, (pool.node d).isAnchor = false ∧ ∀ o ∈ (pool.node d).operands, o ∈ seen ∨ o ∈ stack

private theorem Searched.anchorFree {stack seen : List Expr} (h : Searched pool stack seen)
    (hstack : ∀ s ∈ stack, pool.AnchorFree s) (hd : d ∈ seen) : pool.AnchorFree d := by
  induction d using operandInduction pool with
  | step d ih =>
      refine anchorFree_iff.2 ⟨(h d hd).1, fun o ho => ?_⟩
      rcases (h d hd).2 o ho with hseen | hwait
      · exact ih o ho hseen
      · exact hstack o hwait

private theorem Searched.skip {stack seen : List Expr} (h : Searched pool (e :: stack) seen) (he : e ∈ seen) :
    Searched pool stack seen := by
  intro d hd
  refine ⟨(h d hd).1, fun o ho => ?_⟩
  rcases (h d hd).2 o ho with hseen | hwait
  · exact Or.inl hseen
  · rcases List.mem_cons.1 hwait with rfl | hwait
    · exact Or.inl he
    · exact Or.inr hwait

private theorem Searched.visit {stack seen : List Expr} (h : Searched pool (e :: stack) seen)
    (hnode : (pool.node e).isAnchor = false) :
    Searched pool ((pool.node e).operands.reverse ++ stack) (e :: seen) := by
  intro d hd
  rcases List.mem_cons.1 hd with rfl | hd
  · exact ⟨hnode, fun o ho => Or.inr (by simp [ho])⟩
  · refine ⟨(h d hd).1, fun o ho => ?_⟩
    rcases (h d hd).2 o ho with hseen | hwait
    · exact Or.inl (List.mem_cons_of_mem e hseen)
    · rcases List.mem_cons.1 hwait with rfl | hwait
      · exact Or.inl List.mem_cons_self
      · exact Or.inr (List.mem_append_right _ hwait)

private theorem length_le_of_ids_lt {seen : List Expr} {bound : Nat} (hnodup : seen.Nodup)
    (hseen : ∀ d ∈ seen, d.id < bound) : seen.length ≤ bound := by
  have hids : (seen.map Expr.id).Nodup :=
    List.Pairwise.map Expr.id (fun _ _ hne hid => hne (Expr.ext_id hid)) hnodup
  have hsub : seen.map Expr.id ⊆ List.range bound := by
    intro n hn
    obtain ⟨d, hd, rfl⟩ := List.mem_map.1 hn
    exact List.mem_range.2 (hseen d hd)
  simpa using (hids.subperm hsub).length_le

/-- How a search ends that is left to run: the expressions on the stack wait, those of `seen` were dealt with. -/
inductive Searches (pool : Pool) : (stack seen : List Expr) → (found : Bool) → Prop
  | done {seen : List Expr} : Searches pool [] seen false
  | skip {e : Expr} {stack seen : List Expr} {found : Bool} : e ∈ seen → Searches pool stack seen found →
      Searches pool (e :: stack) seen found
  | anchor {e : Expr} {stack seen : List Expr} : e ∉ seen → (pool.node e).isAnchor = true →
      Searches pool (e :: stack) seen true
  | visit {e : Expr} {stack seen : List Expr} {found : Bool} : e ∉ seen → (pool.node e).isAnchor = false →
      Searches pool ((pool.node e).operands.reverse ++ stack) (e :: seen) found → Searches pool (e :: stack) seen found

/-- A turn takes one expression off the stack, or deals with a new one and adds at most two. -/
private theorem searches_searchAnchor (bound : Nat) {fuel : Nat} {stack seen : List Expr} (hnodup : seen.Nodup)
    (hseen : ∀ d ∈ seen, d.id < bound) (hstack : ∀ s ∈ stack, s.id < bound)
    (hfuel : stack.length + 2 * (bound - seen.length) ≤ fuel) :
    pool.Searches stack seen (pool.searchAnchor fuel stack seen) := by
  induction fuel generalizing stack seen with
  | zero =>
      obtain rfl : stack = [] := List.length_eq_zero_iff.1 (by omega)
      exact .done
  | succ fuel ih =>
      cases stack with
      | nil => exact .done
      | cons e stack =>
          rw [List.length_cons] at hfuel
          have hid : e.id < bound := hstack e List.mem_cons_self
          have hrest : ∀ s ∈ stack, s.id < bound := fun s hs => hstack s (List.mem_cons_of_mem e hs)
          rw [searchAnchor]
          by_cases he : e ∈ seen
          · rw [if_pos he]
            exact .skip he (ih hnodup hseen hrest (by omega))
          · rw [if_neg he]
            split
            · rename_i hanchor
              exact .anchor he hanchor
            · rename_i hanchor
              have hnodup' : (e :: seen).Nodup := List.nodup_cons.2 ⟨he, hnodup⟩
              have hseen' : ∀ d ∈ e :: seen, d.id < bound := List.forall_mem_cons.2 ⟨hid, hseen⟩
              have hcount := length_le_of_ids_lt hnodup' hseen'
              have hops := (pool.node e).length_operands_le
              rw [List.length_cons] at hcount
              refine .visit he (Bool.not_eq_true _ ▸ hanchor) (ih hnodup' hseen' ?_ ?_)
              · intro s hs
                rcases List.mem_append.1 hs with hs | hs
                · exact Nat.lt_trans (pool.operand_lt (List.mem_reverse.1 hs)) hid
                · exact hrest s hs
              · simp only [List.length_append, List.length_reverse, List.length_cons]
                omega

/-- The search for anchors ends, and not for want of turns. -/
theorem searches_containsAnchor (pool : Pool) (e : Expr) : pool.Searches [e] [] (pool.containsAnchor e) := by
  refine searches_searchAnchor (e.id + 1) List.nodup_nil (by simp) (by simp) ?_
  simp only [List.length_cons, List.length_nil]
  omega

private theorem Searches.eq_false_iff {stack seen : List Expr} {found : Bool} (h : pool.Searches stack seen found)
    (hsearched : Searched pool stack seen) : found = false ↔ ∀ s ∈ stack, pool.AnchorFree s := by
  induction h with
  | done => simp
  | skip he _ ih =>
      have hsearched' := hsearched.skip he
      rw [ih hsearched', List.forall_mem_cons]
      exact ⟨fun h => ⟨hsearched'.anchorFree h he, h⟩, fun h => h.2⟩
  | anchor _ hanchor =>
      rw [List.forall_mem_cons]
      refine iff_of_false (by simp) fun h => ?_
      rw [(Pool.anchorFree_iff.1 h.1).1] at hanchor
      cases hanchor
  | @visit e stack seen found _ hnode _ ih =>
      rw [ih (hsearched.visit hnode), List.forall_mem_cons, Pool.anchorFree_iff (e := e)]
      simp only [List.mem_append, List.mem_reverse, or_imp, forall_and, hnode, true_and]

theorem containsAnchor_eq_false_iff : pool.containsAnchor e = false ↔ pool.AnchorFree e := by
  have hsearched : Searched pool [e] [] := fun d hd => by cases hd
  rw [(pool.searches_containsAnchor e).eq_false_iff hsearched]
  exact List.forall_mem_singleton

/-! ## The recursion with a memory -/

/-- What is remembered is right, and is about expressions of the pool. -/
def MemoSound (pool : Pool) (memo : AnchorMemo) : Prop :=
  ∀ e found, memo[e]? = some found → pool.Has e ∧ (found = true ↔ ¬ pool.AnchorFree e)

theorem memoSound_empty (pool : Pool) : pool.MemoSound ∅ := by
  intro e found h
  simp at h

theorem MemoSound.mono {memo : AnchorMemo} (h : pool.MemoSound memo) (hext : Extends pool later) :
    later.MemoSound memo := by
  intro e found hmemo
  obtain ⟨he, hfound⟩ := h e found hmemo
  exact ⟨hext.has he, by rw [hfound, hext.anchorFree_iff he]⟩

private theorem MemoSound.insert {memo : AnchorMemo} {found : Bool} (h : pool.MemoSound memo) (he : pool.Has e)
    (hfound : found = true ↔ ¬ pool.AnchorFree e) : pool.MemoSound (memo.insert e found) := by
  intro d found' hmemo
  rw [Std.HashMap.getElem?_insert] at hmemo
  split at hmemo
  · rename_i heq
    obtain rfl := eq_of_beq heq
    cases hmemo
    exact ⟨he, hfound⟩
  · exact h d found' hmemo

private theorem not_anchorFree_leaf (hn : (pool.node e).operands = []) :
    ¬ pool.AnchorFree e ↔ (pool.node e).isAnchor = true := by
  rw [anchorFree_iff, hn]
  simp

theorem isAnchored_spec {memo : AnchorMemo} (h : pool.MemoSound memo) (he : pool.Has e) :
    ((pool.isAnchored e memo).1 = true ↔ ¬ pool.AnchorFree e) ∧ pool.MemoSound (pool.isAnchored e memo).2 := by
  induction e using operandInduction pool generalizing memo with
  | step e ih =>
      rw [isAnchored]
      cases hmemo : memo[e]? with
      | some known => exact ⟨(h e known hmemo).2, h⟩
      | none =>
          -- It is enough that the answer is right and what was remembered on the way to it is.
          have hboth : ∀ answer : Bool × AnchorMemo,
              (answer.1 = true ↔ ¬ pool.AnchorFree e) ∧ pool.MemoSound answer.2 →
              (answer.1 = true ↔ ¬ pool.AnchorFree e) ∧ pool.MemoSound (answer.2.insert e answer.1) :=
            fun answer h => ⟨h.1, h.2.insert he h.1⟩
          simp only
          split
          · rename_i op l r hn
            have hl : l ∈ (pool.node e).operands := by simp [hn, Node.operands]
            have hr : r ∈ (pool.node e).operands := by simp [hn, Node.operands]
            obtain ⟨hfoundl, hmemol⟩ := ih l hl h (he.operand hl)
            obtain ⟨hfoundr, hmemor⟩ := ih r hr hmemol (he.operand hr)
            refine hboth _ ?_
            rw [anchorFree_of_binary hn, not_and_or, ← hfoundl]
            split
            · rename_i htrue
              exact ⟨by simp [htrue], hmemol⟩
            · rename_i hfalse
              exact ⟨by simp [hfalse, hfoundr], hmemor⟩
          · rename_i op s hn
            have hs : s ∈ (pool.node e).operands := by simp [hn, Node.operands]
            obtain ⟨hfound, hmemo⟩ := ih s hs h (he.operand hs)
            refine hboth _ ?_
            rw [anchorFree_of_unary hn]
            exact ⟨hfound, hmemo⟩
          · rename_i hbinary hunary
            have hops : (pool.node e).operands = [] := by
              cases hn : pool.node e with
              | binary op l r => exact absurd hn (hbinary op l r)
              | unary op s => exact absurd hn (hunary op s)
              | _ => rfl
            exact hboth ((pool.node e).isAnchor, memo) ⟨(not_anchorFree_leaf hops).symm, h⟩

/-- Whether an anchor stands in a node, by what is found out about its operands. -/
def nodeIsAnchored (pool : Pool) (memo : AnchorMemo) : Node → Bool × AnchorMemo
  | .binary _ left right =>
    let (found, memo) := pool.isAnchored left memo
    if found then (true, memo) else pool.isAnchored right memo
  | .unary _ sub => pool.isAnchored sub memo
  | leaf => (leaf.isAnchor, memo)

theorem isAnchored_of_unknown {memo : AnchorMemo} (hmemo : memo[e]? = none) :
    pool.isAnchored e memo =
      ((pool.nodeIsAnchored memo (pool.node e)).1,
        (pool.nodeIsAnchored memo (pool.node e)).2.insert e (pool.nodeIsAnchored memo (pool.node e)).1) := by
  rw [isAnchored, hmemo]
  simp only
  split
  · rename_i hn
    rw [hn, nodeIsAnchored]
  · rename_i hn
    rw [hn, nodeIsAnchored]
  · rename_i hbinary hunary
    cases hn : pool.node e with
    | binary op l r => exact absurd hn (hbinary op l r)
    | unary op s => exact absurd hn (hunary op s)
    | _ => rfl

/-- In a pool that has grown the same is found out, and remembered. -/
theorem Extends.isAnchored_eq (hext : Extends pool later) (he : pool.Has e) (memo : AnchorMemo) :
    later.isAnchored e memo = pool.isAnchored e memo := by
  induction e using operandInduction pool generalizing memo with
  | step e ih =>
      cases hmemo : memo[e]? with
      | some known => rw [isAnchored, isAnchored, hmemo]
      | none =>
          have hnode : later.nodeIsAnchored memo (later.node e) = pool.nodeIsAnchored memo (pool.node e) := by
            rw [hext.node_eq e he]
            cases hn : pool.node e with
            | binary op l r =>
                have hl : l ∈ (pool.node e).operands := by simp [hn, Node.operands]
                have hr : r ∈ (pool.node e).operands := by simp [hn, Node.operands]
                simp only [nodeIsAnchored, ih l hl (he.operand hl), ih r hr (he.operand hr)]
            | unary op s =>
                have hs : s ∈ (pool.node e).operands := by simp [hn, Node.operands]
                exact ih s hs (he.operand hs) memo
            | _ => rfl
          rw [isAnchored_of_unknown hmemo, isAnchored_of_unknown hmemo, hnode]

end Pool

end RegexAlgebra
