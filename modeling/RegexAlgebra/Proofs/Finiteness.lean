import Mathlib.Data.Fintype.List
import Mathlib.Data.Finite.Prod
import Mathlib.Data.Set.Finite.Range
import RegexAlgebra.Proofs.Trees

/-! # Finitely many derivatives

A normal tree lies in a finite set of trees that is closed under derivatives. The set is built along the tree. What it
has to be closed under for that is told by `ClosedAt`: a concatenation is followed into its right part, and a derivative
of its left part goes in front of the right part, but the derivative of the whole need not be in the set. It is a union
of elements of the set. Since there are only finitely many unions of elements of a finite set, nothing is lost by
adding them all in the end (`Closed.full_unions`).
-/

namespace RegexAlgebra.Tree

variable {op : BinaryOp} {l r s t t' u : Tree} {K L M : Set Tree}

/-! ## Chains over a set -/

/-- The normal trees whose chain has its elements in the set. -/
def chains (op : BinaryOp) (K : Set Tree) : Set Tree := {t | t.Normal ∧ ∀ x ∈ t.elements op, x ∈ K}

theorem finite_chains (hop : op ≠ .concat) (hK : K.Finite) : (chains op K).Finite := by
  classical
  have : Fintype K := hK.fintype
  have hlists : (Set.range fun xs : {xs : List K // xs.Nodup} => ofElements op (xs.1.map Subtype.val)).Finite :=
    Set.finite_range _
  refine hlists.subset fun t ht => ?_
  obtain ⟨hnormal, hmem⟩ := ht
  have hmap : ((t.elements op).pmap Subtype.mk hmem).map Subtype.val = t.elements op := by
    simp [List.map_pmap]
  have hnodup : ((t.elements op).pmap Subtype.mk hmem : List K).Nodup := by
    apply List.Nodup.of_map Subtype.val
    rw [hmap]
    exact hnormal.nodup_elements hop
  exact ⟨⟨_, hnodup⟩, by simp only [hmap, hnormal.ofElements_elements hop]⟩

/-! ## Closed sets -/

/-- What the set has to hold on account of one of its trees. -/
structure ClosedAt (K : Set Tree) (t : Tree) : Prop where
  normal : t.Normal
  derives : t.IsElement .concat → ∀ t', Derives t t' → t' ∈ K
  concat : ∀ l r, t = .binary .concat l r → r ∈ K ∧ ∀ l', Derives l l' → l'.cat r ∈ K
  chain : ∀ op l r, op ≠ .concat → t = .binary op l r → l ∈ K ∧ r ∈ K
  negate : ∀ s, t = .unary .negate s → s ∈ K

structure Closed (K : Set Tree) : Prop where
  empty_mem : Tree.empty ∈ K
  epsilon_mem : Tree.epsilon ∈ K
  closedAt : ∀ t ∈ K, ClosedAt K t

/-- A closed set that holds all derivatives of its trees. -/
structure Full (K : Set Tree) : Prop extends Closed K where
  derives_mem : ∀ {t t'}, t ∈ K → Derives t t' → t' ∈ K

theorem ClosedAt.mono (h : ClosedAt K t) (hsub : K ⊆ L) : ClosedAt L t where
  normal := h.normal
  derives := fun helement t' ht' => hsub (h.derives helement t' ht')
  concat := fun l r heq => ⟨hsub (h.concat l r heq).1, fun l' hl' => hsub ((h.concat l r heq).2 l' hl')⟩
  chain := fun op l r hop heq => ⟨hsub (h.chain op l r hop heq).1, hsub (h.chain op l r hop heq).2⟩
  negate := fun s heq => hsub (h.negate s heq)

theorem closedAt_empty (h : Tree.empty ∈ K) : ClosedAt K .empty where
  normal := .empty
  derives := fun _ t' ht' => by
    cases ht'
    exact h
  concat := by simp
  chain := by simp
  negate := by simp

theorem closedAt_epsilon (h : Tree.empty ∈ K) : ClosedAt K .epsilon where
  normal := .epsilon
  derives := fun _ t' ht' => by
    cases ht'
    exact h
  concat := by simp
  chain := by simp
  negate := by simp

theorem closedAt_range {interval : Interval} (h : Tree.empty ∈ K) (h' : Tree.epsilon ∈ K) :
    ClosedAt K (.range interval) where
  normal := .range interval
  derives := fun _ t' ht' => by
    cases ht' with
    | inside => exact h'
    | outside => exact h
  concat := by simp
  chain := by simp
  negate := by simp

namespace Closed

theorem union (hK : Closed K) (hL : Closed L) : Closed (K ∪ L) where
  empty_mem := Or.inl hK.empty_mem
  epsilon_mem := Or.inl hK.epsilon_mem
  closedAt := fun t ht => by
    rcases ht with ht | ht
    · exact (hK.closedAt t ht).mono Set.subset_union_left
    · exact (hL.closedAt t ht).mono Set.subset_union_right

theorem elements_subset (h : Closed K) (hop : op ≠ .concat) (ht : t ∈ K) : ∀ x ∈ t.elements op, x ∈ K := by
  induction t with
  | binary op' l r ihl ihr =>
      by_cases heq : op' = op
      · subst heq
        obtain ⟨hl, hr⟩ := (h.closedAt _ ht).chain op' l r hop rfl
        intro x hx
        rw [elements_binary, List.mem_append] at hx
        exact hx.elim (ihl hl x) (ihr hr x)
      · simpa [elements, heq] using ht
  | _ => simpa [elements] using ht

theorem subset_chains (h : Closed K) (hop : op ≠ .concat) : K ⊆ chains op K := fun t ht =>
  ⟨(h.closedAt t ht).normal, h.elements_subset hop ht⟩

theorem mem_of_mem_chains (ht : t ∈ chains op K) (helement : t.IsElement op) : t ∈ K := by
  have hmem := ht.2
  rw [elements_of_isElement helement] at hmem
  exact hmem t (List.mem_singleton_self t)

/-- The operands of a chain are chains of fewer elements. -/
theorem mem_chains_operands (ht : .binary op l r ∈ chains op K) (hop : op ≠ .concat) :
    l ∈ chains op K ∧ r ∈ chains op K := by
  obtain ⟨hnormal, hmem⟩ := ht
  rw [elements_binary] at hmem
  cases hnormal with
  | concat => exact absurd rfl hop
  | chain _ hl hr =>
      exact ⟨⟨hl, fun x hx => hmem x (List.mem_append_left _ hx)⟩, hr, fun x hx => hmem x (List.mem_append_right _ hx)⟩

/-- The derivative of a tree of a closed set is a union of its trees. -/
private theorem derives_mem_unions (h : Closed K) (ht : t ∈ K) (hderives : Derives t t') : t' ∈ chains .union K := by
  have hnormal := hderives.normal (h.closedAt t ht).normal
  induction t generalizing t' with
  | binary op l r _ ihr =>
      by_cases hop : op = .concat
      · subst hop
        obtain ⟨hr, hl⟩ := (h.closedAt _ ht).concat l r rfl
        cases hderives with
        | left hl' => exact h.subset_chains (by simp) (hl _ hl')
        | @both _ _ l' r' _ hl' hr' _ hjoins =>
            have hmem := ihr hr hr' (hr'.normal (h.closedAt r hr).normal)
            refine ⟨hnormal, fun x hx => ?_⟩
            rcases merged_union.1 (hjoins x hx) with hx | hx
            · exact h.elements_subset (by simp) (hl l' hl') x hx
            · exact hmem.2 x hx
        | chain hop => exact absurd rfl hop
      · exact h.subset_chains (by simp) ((h.closedAt _ ht).derives (isElement_of_ne hop) t' hderives)
  | _ => exact h.subset_chains (by simp) ((h.closedAt _ ht).derives (by simp [IsElement]) t' hderives)

/-- A set of chains is full if it has the derivatives of chains of one element, and is closed at these. -/
private theorem full_chains (hop : op ≠ .concat) (hmerged : ∀ t, Merged op K t → t ∈ K)
    (hempty : Tree.empty ∈ chains op K) (hepsilon : Tree.epsilon ∈ chains op K)
    (hclosed : ∀ t ∈ K, t ∈ chains op K → ClosedAt (chains op K) t)
    (hderives : ∀ t ∈ K, t ∈ chains op K → ∀ t', Derives t t' → t' ∈ chains op K) : Full (chains op K) := by
  have hstep : ∀ t ∈ chains op K, ∀ t', Derives t t' → t' ∈ chains op K := by
    intro t ht
    induction t with
    | binary op' l r ihl ihr =>
        intro t' hderives'
        by_cases heq : op' = op
        · subst heq
          obtain ⟨hl, hr⟩ := mem_chains_operands ht hop
          cases hderives' with
          | chain _ hl' hr' hnormal hjoins =>
              refine ⟨hnormal, fun x hx => hmerged x ((hjoins x hx).mono fun y hy => .element ?_)⟩
              exact hy.elim ((ihl hl _ hl').2 y) ((ihr hr _ hr').2 y)
          | left => exact absurd rfl hop
          | both => exact absurd rfl hop
        · exact hderives _ (mem_of_mem_chains ht (isElement_of_ne heq)) ht t' hderives'
    | _ => exact hderives _ (mem_of_mem_chains ht (by simp [IsElement])) ht
  refine ⟨⟨hempty, hepsilon, fun t ht => ?_⟩, fun ht => hstep _ ht _⟩
  rcases t.isElement_or op with helement | ⟨l, r, rfl⟩
  · exact hclosed t (mem_of_mem_chains ht helement) ht
  · refine ⟨ht.1, fun _ => hstep _ ht, ?_, ?_, by simp⟩
    · intro l' r' heq
      cases heq
      exact absurd rfl hop
    · intro op' l' r' hop heq
      cases heq
      exact mem_chains_operands ht hop

theorem full_unions (h : Closed K) : Full (chains .union K) := by
  have hsub : K ⊆ chains .union K := h.subset_chains (by simp)
  refine full_chains (by simp) (fun t => merged_union.1) (hsub h.empty_mem) (hsub h.epsilon_mem) ?_ ?_
  · exact fun t ht _ => (h.closedAt t ht).mono hsub
  · exact fun t ht _ t' => h.derives_mem_unions ht

end Closed

/-! ## Elements that are merged -/

/-- The bounds of a range that comes of intersections are bounds of ranges that were there. -/
private theorem Merged.exists_bounds {interval : Interval} (h : Merged op K (.range interval)) :
    (∃ i, .range i ∈ K ∧ i.low = interval.low) ∧ ∃ j, .range j ∈ K ∧ j.high = interval.high := by
  generalize ht : Tree.range interval = t at h
  induction h generalizing interval with
  | element hmem =>
      subst ht
      exact ⟨⟨interval, hmem, rfl⟩, interval, hmem, rfl⟩
  | empty => cases ht
  | @range S a b _ _ iha ihb =>
      cases ht
      have hlow : (a ∩ b).low = a.low ∨ (a ∩ b).low = b.low := by
        show (if _ then _ else _) = _ ∨ (if _ then _ else _) = _
        split <;> simp
      have hhigh : (a ∩ b).high = a.high ∨ (a ∩ b).high = b.high := by
        show (if _ then _ else _) = _ ∨ (if _ then _ else _) = _
        split <;> simp
      constructor
      · rcases hlow with heq | heq <;> rw [heq]
        · exact (iha rfl).1
        · exact (ihb rfl).1
      · rcases hhigh with heq | heq <;> rw [heq]
        · exact (iha rfl).2
        · exact (ihb rfl).2

theorem finite_merged (h : K.Finite) : {t | Merged op K t}.Finite := by
  have hranges : {i | Tree.range i ∈ K}.Finite := h.preimage fun _ _ _ _ heq => Tree.range.inj heq
  have hbounds := (Set.Finite.image2 (fun i j => Tree.range ⟨i.low, j.high⟩) hranges hranges).insert .empty
  refine (h.union hbounds).subset fun t ht => ?_
  cases ht with
  | element hmem => exact Or.inl hmem
  | empty => exact Or.inr (Set.mem_insert _ _)
  | @range _ a b ha hb =>
      obtain ⟨⟨i, hi, hlow⟩, j, hj, hhigh⟩ := (Merged.range ha hb).exists_bounds
      exact Or.inr (Or.inr ⟨i, hi, j, hj, by simp only [hlow, hhigh]⟩)

/-- Beside a full set there is one that holds the chains of its trees, merged or not. -/
theorem Full.full_merged (h : Full L) (hop : op ≠ .concat) : Full (chains op {t | Merged op L t}) := by
  have hsub : L ⊆ chains op {t | Merged op L t} := fun t ht =>
    ⟨(h.closedAt t ht).normal, fun x hx => .element (h.elements_subset hop ht x hx)⟩
  have hempty := hsub h.empty_mem
  have hepsilon := hsub h.epsilon_mem
  refine Closed.full_chains hop (fun t ht => ht.mono fun _ hx => hx) hempty hepsilon ?_ ?_
  · intro t ht _
    cases ht with
    | element hmem => exact (h.closedAt t hmem).mono hsub
    | empty => exact closedAt_empty hempty
    | range => exact closedAt_range hempty hepsilon
  · intro t ht _ t' hderives
    cases ht with
    | element hmem => exact hsub (h.derives_mem hmem hderives)
    | empty => exact (closedAt_empty hempty).derives (by simp [IsElement]) t' hderives
    | range => exact (closedAt_range hempty hepsilon).derives (by simp [IsElement]) t' hderives

/-! ## Concatenations -/

/-- A concatenation is closed at if its left part is of a full set and the set is closed at its right part. -/
private theorem closedAt_cat (h : Full L) (hempty : Tree.empty ∈ K) (ht : ClosedAt K t) (htK : t ∈ K)
    (hne : t ≠ .empty) (hne' : t ≠ .epsilon) (hcat : ∀ s ∈ L, s.cat t ∈ K) (hs : s ∈ L) : ClosedAt K (s.cat t) := by
  by_cases hs' : s = .empty
  · simpa [hs'] using closedAt_empty hempty
  by_cases hs'' : s = .epsilon
  · simpa [hs''] using ht
  have hclosed := h.closedAt s hs
  have hnormal := hclosed.normal.cat ht.normal
  -- The node of the concatenation starts with the first part of the left side.
  have hnode : ∃ l r, s.cat t = .binary .concat l r ∧ r ∈ K ∧ ∀ l', Derives l l' → l'.cat r ∈ K := by
    rcases hclosed.normal.exists_cat_eq hs' hs'' hne hne' with ⟨_, heq⟩ | ⟨l, r, rfl, heq⟩
    · exact ⟨s, t, heq, htK, fun l' hl' => hcat l' (h.derives_mem hs hl')⟩
    · obtain ⟨hr, hl⟩ := hclosed.concat l r rfl
      refine ⟨l, r.cat t, heq, hcat r hr, fun l' hl' => ?_⟩
      rw [← cat_assoc]
      exact hcat _ (hl l' hl')
  obtain ⟨l, r, heq, hr, hl⟩ := hnode
  rw [heq] at hnormal ⊢
  refine ⟨hnormal, fun helement => absurd rfl (helement l r), ?_, ?_, by simp⟩
  · intro l' r' heq'
    cases heq'
    exact ⟨hr, hl⟩
  · intro op l' r' hop heq'
    cases heq'
    exact absurd rfl hop

theorem Full.closed_concat (h : Full L) (hM : Closed M) (ht : t ∈ M) (hne : t ≠ .empty) (hne' : t ≠ .epsilon) :
    Closed (M ∪ (·.cat t) '' L) := by
  have hsub : M ⊆ M ∪ (·.cat t) '' L := Set.subset_union_left
  refine ⟨hsub hM.empty_mem, hsub hM.epsilon_mem, fun u hu => ?_⟩
  rcases hu with hu | ⟨s, hs, rfl⟩
  · exact (hM.closedAt u hu).mono hsub
  · exact closedAt_cat h (hsub hM.empty_mem) ((hM.closedAt t ht).mono hsub) (hsub ht) hne hne'
      (fun s hs => Or.inr ⟨s, hs, rfl⟩) hs

theorem Full.closed_star (h : Full L) (hs : s ∈ L) :
    Closed ({.empty, .epsilon, .unary .star s} ∪ (·.cat (.unary .star s)) '' L) := by
  have hempty : Tree.empty ∈ ({.empty, .epsilon, .unary .star s} ∪ (·.cat (.unary .star s)) '' L) := by
    simp
  have hstar : ClosedAt ({.empty, .epsilon, .unary .star s} ∪ (·.cat (.unary .star s)) '' L)
      (.unary .star s) := by
    refine ⟨.star (h.closedAt s hs).normal, fun _ t' hderives => ?_, by simp, by simp, by simp⟩
    cases hderives with
    | star hs' => exact Or.inr ⟨_, h.derives_mem hs hs', rfl⟩
  refine ⟨hempty, by simp, fun u hu => ?_⟩
  rcases hu with (rfl | rfl | rfl) | ⟨l, hl, rfl⟩
  · exact closedAt_empty hempty
  · exact closedAt_epsilon hempty
  · exact hstar
  · exact closedAt_cat h hempty hstar (by simp) (by simp) (by simp) (fun l hl => Or.inr ⟨l, hl, rfl⟩) hl

/-! ## Negations -/

theorem Full.closed_negations (h : Full L) : Closed (L ∪ Tree.neg '' L) := by
  have hsub : L ⊆ L ∪ Tree.neg '' L := Set.subset_union_left
  refine ⟨hsub h.empty_mem, hsub h.epsilon_mem, fun u hu => ?_⟩
  rcases hu with hu | ⟨s, hs, rfl⟩
  · exact (h.closedAt u hu).mono hsub
  · by_cases hnegate : ∃ t, s = .unary .negate t
    · obtain ⟨t, rfl⟩ := hnegate
      exact (h.closedAt t ((h.closedAt _ hs).negate t rfl)).mono hsub
    · have heq : s.neg = .unary .negate s := neg_of_ne fun t ht => hnegate ⟨t, ht⟩
      have hnormal := (h.closedAt s hs).normal.neg
      rw [heq] at hnormal ⊢
      refine ⟨hnormal, fun _ t' hderives => ?_, by simp, by simp, ?_⟩
      · cases hderives with
        | negate hs' => exact Or.inr ⟨_, h.derives_mem hs hs', rfl⟩
      · intro s' heq'
        cases heq'
        exact hsub hs

/-! ## Every tree -/

theorem closed_leaves : Closed {Tree.empty, Tree.epsilon} where
  empty_mem := by simp
  epsilon_mem := by simp
  closedAt := fun t ht => by
    rcases ht with rfl | rfl
    · exact closedAt_empty (by simp)
    · exact closedAt_epsilon (by simp)

theorem closed_range (interval : Interval) : Closed {Tree.empty, Tree.epsilon, Tree.range interval} where
  empty_mem := by simp
  epsilon_mem := by simp
  closedAt := fun t ht => by
    rcases ht with rfl | rfl | rfl
    · exact closedAt_empty (by simp)
    · exact closedAt_epsilon (by simp)
    · exact closedAt_range (by simp) (by simp)

/-- Adding the unions to a finite closed set gives a finite full set. -/
private theorem exists_full_of_closed (h : Closed K) (hK : K.Finite) (ht : t ∈ K) :
    ∃ L : Set Tree, L.Finite ∧ Full L ∧ t ∈ L :=
  ⟨_, finite_chains (by simp) hK, h.full_unions, h.subset_chains (by simp) ht⟩

/-- A normal tree has finitely many derivatives, taken any number of times. -/
theorem Normal.exists_full (h : t.Normal) : ∃ K : Set Tree, K.Finite ∧ Full K ∧ t ∈ K := by
  induction h with
  | empty => exact exists_full_of_closed closed_leaves (Set.toFinite _) (by simp)
  | epsilon => exact exists_full_of_closed closed_leaves (Set.toFinite _) (by simp)
  | range interval => exact exists_full_of_closed (closed_range interval) (Set.toFinite _) (by simp)
  | @chain op l r hop hl hr helement hnodup ihl ihr =>
      obtain ⟨K, hK, hfullK, hlK⟩ := ihl
      obtain ⟨L, hL, hfullL, hrL⟩ := ihr
      have hclosed := hfullK.toClosed.union hfullL.toClosed
      have hsub : K ∪ L ⊆ chains .union (K ∪ L) := hclosed.subset_chains (by simp)
      refine ⟨_, finite_chains hop (finite_merged (finite_chains (by simp) (hK.union hL))),
        hclosed.full_unions.full_merged hop, .chain hop hl hr helement hnodup, fun x hx => .element (hsub ?_)⟩
      rw [elements_binary, List.mem_append] at hx
      exact hx.imp (hfullK.elements_subset hop hlK x) (hfullL.elements_subset hop hrL x)
  | @concat l r hl hr helement hne hne' hr' hr'' ihl ihr =>
      obtain ⟨K, hK, hfullK, hlK⟩ := ihl
      obtain ⟨L, hL, hfullL, hrL⟩ := ihr
      have hcat : binary .concat l r = l.cat r := by simp [cat_of_isElement helement hne hne', hr', hr'']
      exact exists_full_of_closed (hfullK.closed_concat hfullL.toClosed hrL hr' hr'') (hL.union (hK.image _))
        (Or.inr ⟨l, hlK, hcat.symm⟩)
  | @star s hs ih =>
      obtain ⟨K, hK, hfull, hsK⟩ := ih
      exact exists_full_of_closed (hfull.closed_star hsK) ((Set.toFinite _).union (hK.image _)) (by simp)
  | @negate s hs hne ih =>
      obtain ⟨K, hK, hfull, hsK⟩ := ih
      exact exists_full_of_closed hfull.closed_negations (hK.union (hK.image _)) (Or.inr ⟨s, hsK, neg_of_ne hne⟩)

end RegexAlgebra.Tree
