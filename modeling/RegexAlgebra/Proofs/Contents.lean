import Mathlib.Data.Finset.Lattice.Basic
import Mathlib.Order.WithBot
import RegexAlgebra.Proofs.Representation

/-! # Contents of chains

The contents of an expression under one of the two operators are the elements of its chain; an expression without effect
has none, and one that absorbs all others has more than any chain. They are joined like sets, and a handle is determined
by them: chains ascend, so their elements come in one order only.
-/

namespace RegexAlgebra

namespace Pool

variable {pool later : Pool} {op : BinaryOp} {e f l r x : Expr}

/-! ## Elements -/

theorem elements_ne_nil (pool : Pool) (op : BinaryOp) (e : Expr) : pool.elements op e ≠ [] := by
  intro hnil
  have htree := pool.elements_tree op e
  rw [hnil] at htree
  exact Tree.elements_ne_nil op _ htree

theorem elements_of_mem (hx : x ∈ pool.elements op e) : pool.elements op x = [x] := by
  induction e using chainInduction pool op with
  | element e helement =>
      have hself := elements_of_element helement
      rw [hself] at hx
      rwa [List.mem_singleton.1 hx]
  | chain e l r hn ihl ihr =>
      rw [elements_of_chain hn] at hx
      exact (List.mem_append.1 hx).elim ihl ihr

theorem Extends.elements_eq (hext : Extends pool later) (he : pool.Has e) :
    later.elements op e = pool.elements op e := by
  have hnode := hext.node_eq e he
  induction e using chainInduction pool op with
  | element e helement => rw [elements_of_element helement, elements_of_element (hnode ▸ helement)]
  | chain e l r hn ihl ihr =>
      obtain ⟨hl, hr⟩ := has_of_binary hn he
      rw [elements_of_chain hn, elements_of_chain (hnode.trans hn), ihl hl (hext.node_eq l hl),
        ihr hr (hext.node_eq r hr)]

namespace InNormalForm

theorem elements_ne_singleton (h : pool.InNormalForm) (he : pool.Has e) (hn : pool.node e = .binary op l r) (x : Expr) :
    pool.elements op e ≠ [x] := by
  rw [h.elements_cons he hn]
  intro hsingle
  exact pool.elements_ne_nil op r (List.cons.inj hsingle).2

/-- A handle is determined by the elements of its chain. -/
theorem eq_of_elements (h : pool.InNormalForm) (he : pool.Has e) (hf : pool.Has f)
    (helements : pool.elements op e = pool.elements op f) : e = f := by
  induction e using chainInduction pool op generalizing f with
  | element e helement =>
      rw [elements_of_element helement] at helements
      rcases pool.chain_or op f with helement' | ⟨l', r', hn'⟩
      · rw [elements_of_element helement'] at helements
        exact List.singleton_inj.1 helements
      · exact absurd helements.symm (h.elements_ne_singleton hf hn' e)
  | chain e l r hn _ ihr =>
      rcases pool.chain_or op f with helement' | ⟨l', r', hn'⟩
      · rw [elements_of_element helement'] at helements
        exact absurd helements (h.elements_ne_singleton he hn f)
      · rw [h.elements_cons he hn, h.elements_cons hf hn', List.cons.injEq] at helements
        have htail := ihr (has_of_binary hn he).2 (has_of_binary hn' hf).2 helements.2
        exact h.eq_of_node he hf (by rw [hn, hn', helements.1, htail])

/-- Chains ascend, so their elements come in one order only. -/
theorem eq_of_mem_elements (h : pool.InNormalForm) (hop : op ≠ .concat) (he : pool.Has e) (hf : pool.Has f)
    (hmem : ∀ x, x ∈ pool.elements op e ↔ x ∈ pool.elements op f) : e = f := by
  have hperm : (pool.elements op e).Perm (pool.elements op f) :=
    (List.perm_ext_iff_of_nodup (h.nodup_elements hop he) (h.nodup_elements hop hf)).2 hmem
  refine h.eq_of_elements he hf (hperm.eq_of_pairwise ?_ (h.ascending_elements hop he).1 (h.ascending_elements hop hf).1)
  intro x y _ _ hlt hlt'
  omega

end InNormalForm

/-! ## Contents -/

/-- Without effect under the operator. -/
def isNeutral (pool : Pool) : BinaryOp → Expr → Bool
  | .union, e => e == .empty
  | .intersect, e => pool.isAll e
  | .concat, e => e == .epsilon

/-- Leaves no effect to any other operand. -/
def isAbsorbing (pool : Pool) : BinaryOp → Expr → Bool
  | .union, e => pool.isAll e
  | .intersect, e => e == .empty
  | .concat, e => e == .empty

/-- The elements of a chain as a set; none for an expression without effect, and more than any set for one that absorbs
the others. -/
def contents (pool : Pool) (op : BinaryOp) (e : Expr) : WithTop (Finset Expr) :=
  if pool.isAbsorbing op e then ⊤
  else if pool.isNeutral op e then ⊥
  else ((pool.elements op e).toFinset : Finset Expr)

theorem contents_of_absorbing (h : pool.isAbsorbing op e = true) : pool.contents op e = ⊤ := by
  simp [contents, h]

theorem contents_of_neutral (h : pool.isAbsorbing op e = false) (h' : pool.isNeutral op e = true) :
    pool.contents op e = ⊥ := by
  simp [contents, h, h']

theorem isProper_iff (hop : op ≠ .concat) :
    pool.IsProper e ↔ pool.isAbsorbing op e = false ∧ pool.isNeutral op e = false := by
  cases op with
  | union => simp [IsProper, isAbsorbing, isNeutral, and_comm]
  | intersect => simp [IsProper, isAbsorbing, isNeutral]
  | concat => exact absurd rfl hop

theorem contents_of_proper (hop : op ≠ .concat) (h : pool.IsProper e) :
    pool.contents op e = ((pool.elements op e).toFinset : Finset Expr) := by
  obtain ⟨habsorbing, hneutral⟩ := (isProper_iff hop).1 h
  simp [contents, habsorbing, hneutral]

theorem contents_eq_top_iff : pool.contents op e = ⊤ ↔ pool.isAbsorbing op e = true := by
  unfold contents
  split
  · simp [*]
  · split <;> simp [*]

theorem contents_eq_bot_iff :
    pool.contents op e = ⊥ ↔ pool.isAbsorbing op e = false ∧ pool.isNeutral op e = true := by
  unfold contents
  split
  · simp [*]
  · split
    · simp [*]
    · have hne := pool.elements_ne_nil op e
      simp [*]

theorem isProper_iff_contents (hop : op ≠ .concat) :
    pool.IsProper e ↔ pool.contents op e ≠ ⊤ ∧ pool.contents op e ≠ ⊥ := by
  rw [isProper_iff hop, Ne, contents_eq_top_iff, Ne, contents_eq_bot_iff]
  cases pool.isAbsorbing op e <;> cases pool.isNeutral op e <;> simp

theorem Extends.isNeutral_eq (hext : Extends pool later) (he : pool.Has e) :
    later.isNeutral op e = pool.isNeutral op e := by
  cases op <;> simp [isNeutral, isAll, hext.node_eq e he]

theorem Extends.isAbsorbing_eq (hext : Extends pool later) (he : pool.Has e) :
    later.isAbsorbing op e = pool.isAbsorbing op e := by
  cases op <;> simp [isAbsorbing, isAll, hext.node_eq e he]

theorem Extends.contents_eq (hext : Extends pool later) (he : pool.Has e) :
    later.contents op e = pool.contents op e := by
  rw [contents, contents, hext.isAbsorbing_eq he, hext.isNeutral_eq he, hext.elements_eq he]

namespace InNormalForm

theorem isAbsorbing_of_neutral (h : pool.InNormalForm) (hneutral : pool.isNeutral op e = true) :
    pool.isAbsorbing op e = false := by
  cases op with
  | union =>
      rw [isNeutral, beq_iff_eq] at hneutral
      simp [isAbsorbing, hneutral, isAll, h.leaves.1, Node.asUnary?]
  | intersect =>
      rw [isAbsorbing, beq_eq_false_iff_ne]
      rintro rfl
      simp [isNeutral, isAll, h.leaves.1, Node.asUnary?] at hneutral
  | concat =>
      rw [isNeutral, beq_iff_eq] at hneutral
      rw [hneutral]
      rfl

theorem isProper_of_chain (h : pool.InNormalForm) (hop : op ≠ .concat) (he : pool.Has e)
    (hn : pool.node e = .binary op l r) : pool.IsProper l ∧ pool.IsProper r ∧ pool.IsProper e := by
  have hnormal := h.normal e he
  have hself : pool.IsProper e := by
    refine ⟨?_, by simp [isAll, hn, Node.asUnary?]⟩
    rintro rfl
    rw [h.leaves.1] at hn
    cases hn
  rw [hn] at hnormal
  cases op with
  | union => exact ⟨hnormal.1, hnormal.2.1, hself⟩
  | intersect => exact ⟨hnormal.1, hnormal.2.1, hself⟩
  | concat => exact absurd rfl hop

theorem isAbsorbing_of_chain (h : pool.InNormalForm) (hop : op ≠ .concat) (he : pool.Has e)
    (hn : pool.node e = .binary op l r) :
    pool.isAbsorbing op l = false ∧ pool.isAbsorbing op r = false ∧ pool.isAbsorbing op e = false := by
  obtain ⟨hl, hr, hself⟩ := h.isProper_of_chain hop he hn
  exact ⟨((isProper_iff hop).1 hl).1, ((isProper_iff hop).1 hr).1, ((isProper_iff hop).1 hself).1⟩

theorem contents_of_chain (h : pool.InNormalForm) (hop : op ≠ .concat) (he : pool.Has e)
    (hn : pool.node e = .binary op l r) : pool.contents op e = pool.contents op l ⊔ pool.contents op r := by
  obtain ⟨hl, hr, hself⟩ := h.isProper_of_chain hop he hn
  rw [contents_of_proper hop hl, contents_of_proper hop hr, contents_of_proper hop hself, elements_of_chain hn,
    List.toFinset_append]
  rfl

theorem eq_of_isAll (h : pool.InNormalForm) (he : pool.Has e) (hf : pool.Has f) (hall : pool.isAll e = true)
    (hall' : pool.isAll f = true) : e = f := by
  rw [isAll, beq_iff_eq, Node.asUnary?_eq_some_iff] at hall hall'
  exact h.eq_of_node he hf (hall.trans hall'.symm)

/-- A handle is determined by its contents. -/
theorem eq_of_contents (h : pool.InNormalForm) (hop : op ≠ .concat) (he : pool.Has e) (hf : pool.Has f)
    (hcontents : pool.contents op e = pool.contents op f) : e = f := by
  by_cases htop : pool.contents op e = ⊤
  · have habsorbing := contents_eq_top_iff.1 htop
    have habsorbing' := contents_eq_top_iff.1 (hcontents ▸ htop)
    cases op with
    | union => exact h.eq_of_isAll he hf habsorbing habsorbing'
    | intersect => simp_all [isAbsorbing]
    | concat => exact absurd rfl hop
  · by_cases hbot : pool.contents op e = ⊥
    · have hneutral := (contents_eq_bot_iff.1 hbot).2
      have hneutral' := (contents_eq_bot_iff.1 (hcontents ▸ hbot)).2
      cases op with
      | union => simp_all [isNeutral]
      | intersect => exact h.eq_of_isAll he hf hneutral hneutral'
      | concat => exact absurd rfl hop
    · have hproper : pool.IsProper e := (isProper_iff_contents hop).2 ⟨htop, hbot⟩
      have hproper' : pool.IsProper f := (isProper_iff_contents hop).2 (hcontents ▸ ⟨htop, hbot⟩)
      rw [contents_of_proper hop hproper, contents_of_proper hop hproper', WithTop.coe_inj] at hcontents
      refine h.eq_of_mem_elements hop he hf fun x => ?_
      rw [← List.mem_toFinset, hcontents, List.mem_toFinset]

theorem contents_le_of_mem (h : pool.InNormalForm) (hop : op ≠ .concat) (he : pool.Has e)
    (hx : x ∈ pool.elements op e) : pool.contents op x ≤ pool.contents op e := by
  induction e using chainInduction pool op with
  | element e helement =>
      rw [elements_of_element helement] at hx
      rw [List.mem_singleton.1 hx]
  | chain e l r hn ihl ihr =>
      obtain ⟨hl, hr⟩ := has_of_binary hn he
      rw [elements_of_chain hn] at hx
      rw [h.contents_of_chain hop he hn]
      rcases List.mem_append.1 hx with hx | hx
      · exact (ihl hl hx).trans le_sup_left
      · exact (ihr hr hx).trans le_sup_right

end InNormalForm

end Pool

end RegexAlgebra
