import Mathlib.Data.List.Nodup
import Mathlib.Data.Set.Defs
import RegexAlgebra.Expr

/-! # Trees of expressions

The tree of an expression is what is left of it when handles are forgotten: its node, with the trees of its operands in
place of the operands. Handles depend on the order in which a pool was asked for its nodes, trees do not, so a statement
about all pools that an expression may live in is one about trees.

Of the constructors on trees only the concatenation and the negation are functions. The order of a chain depends on the
handles of its elements; `Joins` says of a chain no more than where its elements come from. So taking a derivative is a
relation here, `Derives`. It leaves the symbol open, and whether the left part of a concatenation matches the empty
word.
-/

namespace RegexAlgebra

/-- An expression without its handles. -/
inductive Tree
  | empty
  | epsilon
  | startAnchor
  | endAnchor
  | range (interval : Interval)
  | binary (op : BinaryOp) (left right : Tree)
  | unary (op : UnaryOp) (sub : Tree)
deriving DecidableEq

namespace Tree

variable {op : BinaryOp} {l r s t t' u : Tree}

/-! ## Chains -/

/-- No chain of the operator. -/
def IsElement (op : BinaryOp) (t : Tree) : Prop := ∀ l r, t ≠ .binary op l r

def elements (op : BinaryOp) : Tree → List Tree
  | .binary op' l r => if op' = op then l.elements op ++ r.elements op else [.binary op' l r]
  | t => [t]

@[simp] theorem elements_binary : (binary op l r).elements op = l.elements op ++ r.elements op := by
  simp [elements]

theorem isElement_of_ne {op' : BinaryOp} (h : op' ≠ op) : (binary op' l r).IsElement op := by
  intro l' r' heq
  cases heq
  exact h rfl

theorem elements_of_isElement (h : t.IsElement op) : t.elements op = [t] := by
  cases t with
  | binary op' l r =>
      have hne : op' ≠ op := by
        rintro rfl
        exact h l r rfl
      simp [elements, hne]
  | _ => rfl

theorem isElement_or (op : BinaryOp) (t : Tree) : t.IsElement op ∨ ∃ l r, t = .binary op l r := by
  by_cases h : ∃ l r, t = .binary op l r
  · exact Or.inr h
  · exact Or.inl fun l r heq => h ⟨l, r, heq⟩

def ofElements (op : BinaryOp) : List Tree → Tree
  | [] => .empty
  | [t] => t
  | t :: t' :: ts => .binary op t (ofElements op (t' :: ts))

theorem elements_ne_nil (op : BinaryOp) (t : Tree) : t.elements op ≠ [] := by
  induction t with
  | binary op' l r ihl ihr =>
      unfold elements
      split <;> simp [ihl]
  | _ => simp [elements]

/-! ## Constructors -/

/-- One tree after another, nested to the right. -/
def cat : Tree → Tree → Tree
  | .empty, _ => .empty
  | .epsilon, t => t
  | .binary .concat l r, t => l.cat (r.cat t)
  | s, t => if t = .empty then .empty else if t = .epsilon then s else .binary .concat s t

/-- The negation, where two cancel. -/
def neg : Tree → Tree
  | .unary .negate t => t
  | t => .unary .negate t

@[simp] theorem cat_binary_concat : (binary .concat l r).cat t = l.cat (r.cat t) := by
  rw [cat]

theorem cat_of_isElement (h : s.IsElement .concat) (hempty : s ≠ .empty) (hepsilon : s ≠ .epsilon) :
    s.cat t = if t = .empty then .empty else if t = .epsilon then s else .binary .concat s t := by
  cases s with
  | empty => exact absurd rfl hempty
  | epsilon => exact absurd rfl hepsilon
  | binary op l r =>
      cases op with
      | concat => exact absurd rfl (h l r)
      | _ => rfl
  | _ => rfl

@[simp] theorem empty_cat : Tree.empty.cat t = .empty := by rw [cat]

@[simp] theorem epsilon_cat : Tree.epsilon.cat t = t := by rw [cat]

@[simp] theorem cat_empty (t : Tree) : t.cat .empty = .empty := by
  induction t with
  | binary op l r ihl ihr =>
      cases op with
      | concat => rw [cat_binary_concat, ihr, ihl]
      | _ => rfl
  | _ => rfl

theorem neg_of_ne (h : ∀ s, t ≠ .unary .negate s) : t.neg = .unary .negate t := by
  cases t with
  | unary op s =>
      cases op with
      | star => rfl
      | negate => exact absurd rfl (h s)
  | _ => rfl

theorem cat_assoc (s t u : Tree) : (s.cat t).cat u = s.cat (t.cat u) := by
  induction s generalizing t with
  | empty => simp
  | epsilon => simp
  | binary op l r ihl ihr =>
      by_cases hop : op = .concat
      · subst hop
        rw [cat_binary_concat, cat_binary_concat, ihl, ihr]
      · rw [cat_of_isElement (t := t) (isElement_of_ne hop) (by simp) (by simp)]
        split
        · simp [*]
        · split <;> simp [*]
  | _ =>
      rw [cat_of_isElement (t := t) (by simp [IsElement]) (by simp) (by simp)]
      split
      · simp [*]
      · split <;> simp [*]

/-! ## Normal trees -/

/-- A tree without anchors whose chains are nested to the right and free of duplicates, whose concatenations are nested
to the right and hold neither nothing nor the empty word, and which negates no negation. -/
inductive Normal : Tree → Prop
  | empty : Normal .empty
  | epsilon : Normal .epsilon
  | range (interval : Interval) : Normal (.range interval)
  | chain {op : BinaryOp} {l r : Tree} : op ≠ .concat → Normal l → Normal r → l.IsElement op →
      (l :: r.elements op).Nodup → Normal (.binary op l r)
  | concat {l r : Tree} : Normal l → Normal r → l.IsElement .concat → l ≠ .empty → l ≠ .epsilon → r ≠ .empty →
      r ≠ .epsilon → Normal (.binary .concat l r)
  | star {s : Tree} : Normal s → Normal (.unary .star s)
  | negate {s : Tree} : Normal s → (∀ t, s ≠ .unary .negate t) → Normal (.unary .negate s)

namespace Normal

theorem nodup_elements (h : t.Normal) (hop : op ≠ .concat) : (t.elements op).Nodup := by
  rcases t.isElement_or op with helement | ⟨l, r, rfl⟩
  · rw [elements_of_isElement helement]
    exact List.nodup_singleton t
  · cases h with
    | chain _ _ _ hl hnodup =>
        rw [elements_binary, elements_of_isElement hl]
        exact hnodup
    | concat => exact absurd rfl hop

/-- A normal tree is the chain of its elements. -/
theorem ofElements_elements (h : t.Normal) (hop : op ≠ .concat) : ofElements op (t.elements op) = t := by
  induction t with
  | binary op' l r ihl ihr =>
      by_cases heq : op' = op
      · subst heq
        cases h with
        | chain _ _ hr hl _ =>
            obtain ⟨x, xs, hxs⟩ := List.exists_cons_of_ne_nil (elements_ne_nil op' r)
            have ihr := ihr hr
            rw [elements_binary, elements_of_isElement hl]
            rw [hxs] at ihr ⊢
            rw [List.singleton_append, ofElements, ihr]
        | concat => exact absurd rfl hop
      · simp [elements, heq, ofElements]
  | _ => rfl

/-- The concatenation of a tree that is neither nothing nor the empty word with another such tree is a node. -/
theorem exists_cat_eq (h : s.Normal) (hs : s ≠ .empty) (hs' : s ≠ .epsilon) (ht : t ≠ .empty) (ht' : t ≠ .epsilon) :
    (s.IsElement .concat ∧ s.cat t = .binary .concat s t) ∨
      ∃ l r, s = .binary .concat l r ∧ s.cat t = .binary .concat l (r.cat t) := by
  induction s generalizing t with
  | binary op l r ihl ihr =>
      rcases isElement_or .concat (binary op l r) with helement | ⟨l', r', heq⟩
      · exact Or.inl ⟨helement, by simp [cat_of_isElement helement hs hs', ht, ht']⟩
      · cases heq
        cases h with
        | chain hop => exact absurd rfl hop
        | concat hl hr helement hne hne' hr' hr'' =>
            have hrest : r.cat t ≠ .empty ∧ r.cat t ≠ .epsilon := by
              rcases ihr hr hr' hr'' ht ht' with ⟨_, heq⟩ | ⟨l', r', _, heq⟩ <;> simp [heq]
            refine Or.inr ⟨l, r, rfl, ?_⟩
            simp [cat_of_isElement helement hne hne', hrest]
  | empty => exact absurd rfl hs
  | epsilon => exact absurd rfl hs'
  | _ =>
      refine Or.inl ⟨by simp [IsElement], ?_⟩
      rw [cat_of_isElement (by simp [IsElement]) hs hs', if_neg ht, if_neg ht']

theorem cat_epsilon (h : t.Normal) : t.cat .epsilon = t := by
  induction h with
  | chain hop _ _ _ _ =>
      rw [cat_of_isElement (isElement_of_ne hop) (by simp) (by simp)]
      simp
  | concat _ _ hl hne hne' hr hr' _ ihr =>
      rw [cat_binary_concat, ihr, cat_of_isElement hl hne hne', if_neg hr, if_neg hr']
  | _ => rfl

private theorem cat_of_element (hs : s.Normal) (ht : t.Normal) (h : s.IsElement .concat) : (s.cat t).Normal := by
  by_cases hempty : s = .empty
  · simpa [hempty] using Normal.empty
  by_cases hepsilon : s = .epsilon
  · simpa [hepsilon] using ht
  rw [cat_of_isElement h hempty hepsilon]
  split
  · exact .empty
  · split
    · exact hs
    · exact .concat hs ht h hempty hepsilon ‹_› ‹_›

theorem cat (hs : s.Normal) (ht : t.Normal) : (s.cat t).Normal := by
  induction s with
  | binary op l r ihl ihr =>
      rcases isElement_or .concat (binary op l r) with helement | ⟨l', r', heq⟩
      · exact hs.cat_of_element ht helement
      · cases heq
        cases hs with
        | chain hop => exact absurd rfl hop
        | concat hl hr helement =>
            rw [cat_binary_concat]
            exact hl.cat_of_element (ihr hr) helement
  | _ => exact hs.cat_of_element ht (by simp [IsElement])

theorem neg (h : t.Normal) : t.neg.Normal := by
  by_cases hnegate : ∃ s, t = .unary .negate s
  · obtain ⟨s, rfl⟩ := hnegate
    cases h with
    | negate hs => exact hs
  · have heq : t.neg = .unary .negate t := neg_of_ne fun s hs => hnegate ⟨s, hs⟩
    rw [heq]
    exact .negate h fun s hs => hnegate ⟨s, hs⟩

end Normal

/-! ## Derivatives -/

/-- What some elements of a chain can come to: of an intersection, the ranges may be intersected. -/
inductive Merged : BinaryOp → Set Tree → Tree → Prop
  | element {op : BinaryOp} {S : Set Tree} {t : Tree} : t ∈ S → Merged op S t
  | empty {S : Set Tree} : Merged .intersect S .empty
  | range {S : Set Tree} {i j : Interval} : Merged .intersect S (.range i) → Merged .intersect S (.range j) →
      Merged .intersect S (.range (i ∩ j))

/-- The elements of the third tree come from the chains of the first two. -/
def Joins (op : BinaryOp) (s t u : Tree) : Prop :=
  ∀ x ∈ u.elements op, Merged op {y | y ∈ s.elements op ∨ y ∈ t.elements op} x

/-- The second tree is one that the derivative of the first by some symbol may have. -/
inductive Derives : Tree → Tree → Prop
  | empty : Derives .empty .empty
  | epsilon : Derives .epsilon .empty
  | inside (interval : Interval) : Derives (.range interval) .epsilon
  | outside (interval : Interval) : Derives (.range interval) .empty
  | chain {op : BinaryOp} {l r l' r' t : Tree} : op ≠ .concat → Derives l l' → Derives r r' → t.Normal →
      Joins op l' r' t → Derives (.binary op l r) t
  | left {l r l' : Tree} : Derives l l' → Derives (.binary .concat l r) (l'.cat r)
  | both {l r l' r' t : Tree} : Derives l l' → Derives r r' → t.Normal → Joins .union (l'.cat r) r' t →
      Derives (.binary .concat l r) t
  | star {s s' : Tree} : Derives s s' → Derives (.unary .star s) (s'.cat (.unary .star s))
  | negate {s s' : Tree} : Derives s s' → Derives (.unary .negate s) s'.neg

theorem Merged.mono {S T : Set Tree} (h : Merged op S t) (hsub : ∀ x ∈ S, Merged op T x) : Merged op T t := by
  induction h with
  | element hmem => exact hsub _ hmem
  | empty => exact .empty
  | range _ _ ihi ihj => exact .range (ihi hsub) (ihj hsub)

theorem merged_union {S : Set Tree} : Merged .union S t ↔ t ∈ S := by
  constructor
  · intro h
    cases h with
    | element hmem => exact hmem
  · exact .element

theorem joins_left (op : BinaryOp) (s t : Tree) : Joins op s t s := fun _ hx => .element (Or.inl hx)

theorem joins_right (op : BinaryOp) (s t : Tree) : Joins op s t t := fun _ hx => .element (Or.inr hx)

theorem joins_binary (op : BinaryOp) (s t : Tree) : Joins op s t (.binary op s t) := by
  intro x hx
  rw [elements_binary, List.mem_append] at hx
  exact .element hx

/-- Two ranges are joined by the range of what they have in common. -/
theorem joins_common (i j : Interval) :
    Joins .intersect (.range i) (.range j) (if (i ∩ j).isEmpty then .empty else .range (i ∩ j)) := by
  intro x hx
  split at hx
  · exact List.mem_singleton.1 hx ▸ .empty
  · have hi : Merged .intersect {y | y ∈ (Tree.range i).elements .intersect ∨ y ∈ (Tree.range j).elements .intersect}
        (.range i) := .element (Or.inl (List.mem_singleton_self _))
    have hj : Merged .intersect {y | y ∈ (Tree.range i).elements .intersect ∨ y ∈ (Tree.range j).elements .intersect}
        (.range j) := .element (Or.inr (List.mem_singleton_self _))
    exact List.mem_singleton.1 hx ▸ .range hi hj

theorem Joins.symm (h : Joins op s t u) : Joins op t s u := fun x hx =>
  (h x hx).mono fun _ hy => .element hy.symm

theorem Joins.regroup_left (hrest : Joins op r t u) (h : Joins op l u s) : Joins op (.binary op l r) t s := by
  intro x hx
  simp only [elements_binary, List.mem_append]
  refine (h x hx).mono fun y hy => ?_
  rcases hy with hy | hy
  · exact .element (Or.inl (Or.inl hy))
  · refine (hrest y hy).mono fun z hz => .element ?_
    exact hz.imp Or.inr id

theorem Joins.regroup_right (hrest : Joins op t r u) (h : Joins op l u s) : Joins op t (.binary op l r) s := by
  intro x hx
  simp only [elements_binary, List.mem_append]
  refine (h x hx).mono fun y hy => ?_
  rcases hy with hy | hy
  · exact .element (Or.inr (Or.inl hy))
  · refine (hrest y hy).mono fun z hz => .element ?_
    exact hz.imp id Or.inr

theorem Derives.normal (h : Derives t t') (ht : t.Normal) : t'.Normal := by
  induction h with
  | empty => exact ht
  | epsilon => exact .empty
  | inside interval => exact .epsilon
  | outside interval => exact .empty
  | chain _ _ _ hnormal _ => exact hnormal
  | both _ _ hnormal _ => exact hnormal
  | left _ ih =>
      cases ht with
      | chain hop => exact absurd rfl hop
      | concat hl hr => exact (ih hl).cat hr
  | star _ ih =>
      cases ht with
      | star hs => exact (ih hs).cat (.star hs)
  | negate _ ih =>
      cases ht with
      | negate hs => exact (ih hs).neg

end Tree

end RegexAlgebra
