import RegexAlgebra.Proofs.Languages

/-! # Pieces in context

Whether an expression with anchors matches a piece depends on the word of the piece, on whether the piece starts at the
start of the input, and on whether it ends at the end of it; on nothing else. For each of the four cases an expression
has a language of its own. The languages of a concatenation and of a star come from those of their parts by cutting a
piece into non-empty ones, whose inner ends are at no end of the input.
-/

namespace RegexAlgebra

def nonEmpty (L : Language Char) : Language Char := {word | word ∈ L ∧ word ≠ []}

def emptyPart (L : Language Char) : Language Char := {word | word ∈ L ∧ word = []}

section Parts

variable {L M : Language Char} {word : List Char}

theorem mem_nonEmpty : word ∈ nonEmpty L ↔ word ∈ L ∧ word ≠ [] := Iff.rfl

theorem mem_emptyPart : word ∈ emptyPart L ↔ word ∈ L ∧ word = [] := Iff.rfl

theorem mem_emptyPart_mul : word ∈ emptyPart L * M ↔ [] ∈ L ∧ word ∈ M := by
  rw [Language.mem_mul]
  constructor
  · intro hparts
    obtain ⟨u, ⟨hu, hnil⟩, v, hv, huv⟩ := hparts
    subst hnil
    exact ⟨hu, huv ▸ hv⟩
  · intro hparts
    obtain ⟨hL, hM⟩ := hparts
    exact ⟨[], ⟨hL, rfl⟩, word, hM, rfl⟩

theorem mem_mul_emptyPart : word ∈ L * emptyPart M ↔ word ∈ L ∧ [] ∈ M := by
  rw [Language.mem_mul]
  constructor
  · intro hparts
    obtain ⟨u, hu, v, ⟨hv, hnil⟩, huv⟩ := hparts
    subst hnil
    rw [List.append_nil] at huv
    exact ⟨huv ▸ hu, hv⟩
  · intro hparts
    obtain ⟨hL, hM⟩ := hparts
    exact ⟨word, hL, [], ⟨hM, rfl⟩, List.append_nil word⟩

theorem kstar_nonEmpty : KStar.kstar (nonEmpty L) = KStar.kstar L := by
  rw [Language.kstar_def_nonempty L, Language.kstar_def]
  rfl

end Parts

namespace Pieces

variable {input : List Char} {i j k : Nat} {atStart atEnd : Bool}

/-- The piece stands at the start of the input or not, and at its end or not, as the flags say. -/
structure InContext (input : List Char) (i j : Nat) (atStart atEnd : Bool) : Prop where
  within : Within input i j
  start_iff : i = 0 ↔ atStart = true
  end_iff : j = input.length ↔ atEnd = true

theorem inContext_decide (h : Within input i j) :
    InContext input i j (decide (i = 0)) (decide (j = input.length)) :=
  ⟨h, by simp, by simp⟩

/-- Every word is that of a piece in every context. -/
theorem exists_inContext (word : List Char) (atStart atEnd : Bool) :
    ∃ input i j, InContext input i j atStart atEnd ∧ slice input i j = word := by
  have hpiece : ∀ before behind : List Char,
      slice (before ++ word ++ behind) before.length (before.length + word.length) = word := by
    intro before behind
    simp [slice]
  have hwithin : ∀ before behind : List Char,
      Within (before ++ word ++ behind) before.length (before.length + word.length) := by
    intro before behind
    simp [Within]
  refine ⟨(if atStart then [] else ['a']) ++ word ++ (if atEnd then [] else ['a']), _, _, ⟨hwithin _ _, ?_, ?_⟩,
    hpiece _ _⟩
  · cases atStart <;> simp
  · cases atEnd <;> simp

theorem lt_of_slice_ne_nil (hij : i ≤ j) (hword : slice input i j ≠ []) : i < j := by
  rcases Nat.lt_or_eq_of_le hij with hlt | rfl
  · exact hlt
  · exact absurd (slice_self input i) hword

/-- A star over a piece is nothing, one part, or a first part, some inner ones and a last one, of which the first and
the last are not empty. -/
theorem star_iff_parts {R : Pieces} :
    Star R i j ↔ i = j ∨ (R i j ∧ i < j) ∨ ∃ p q, i < p ∧ p ≤ q ∧ q < j ∧ R i p ∧ Star R p q ∧ R q j := by
  constructor
  · intro h
    refine Star.induction (motive := fun i => i = j ∨ (R i j ∧ i < j) ∨
      ∃ p q, i < p ∧ p ≤ q ∧ q < j ∧ R i p ∧ Star R p q ∧ R q j) h (Or.inl rfl) ?_
    intro i k hik _ hR _ hrest
    rcases Nat.lt_or_eq_of_le hik with hlt | rfl
    · refine Or.inr ?_
      rcases hrest with rfl | ⟨hR', hkj⟩ | ⟨p, q, hkp, hpq, hqj, hR', hstar, hlast⟩
      · exact Or.inl ⟨hR, hlt⟩
      · exact Or.inr ⟨k, k, hlt, Nat.le_refl k, hkj, hR, .refl R k, hR'⟩
      · exact Or.inr ⟨k, q, hlt, by omega, hqj, hR, .head (by omega) hR' hstar, hlast⟩
    · exact hrest
  · intro h
    rcases h with rfl | ⟨hR, hij⟩ | ⟨p, q, hip, _, hqj, hR, hstar, hlast⟩
    · exact .refl R i
    · exact .single (Nat.le_of_lt hij) hR
    · exact .head (Nat.le_of_lt hip) hR (hstar.trans (.single (Nat.le_of_lt hqj) hlast))

/-! ## Cuts of a piece in context -/

namespace InContext

theorem left (h : InContext input i j atStart atEnd) (hik : i ≤ k) (hkj : k < j) :
    InContext input i k atStart false := by
  obtain ⟨⟨_, hj⟩, hstart, _⟩ := h
  exact ⟨⟨hik, by omega⟩, hstart, iff_of_false (by omega) Bool.false_ne_true⟩

theorem right (h : InContext input i j atStart atEnd) (hik : i < k) (hkj : k ≤ j) :
    InContext input k j false atEnd := by
  obtain ⟨⟨_, hj⟩, _, hend⟩ := h
  exact ⟨⟨hkj, hj⟩, iff_of_false (by omega) Bool.false_ne_true, hend⟩

theorem inner {p q : Nat} (h : InContext input i j atStart atEnd) (hip : i < p) (hpq : p ≤ q) (hqj : q < j) :
    InContext input p q false false := (h.left (by omega) hqj).right hip hpq

theorem ne_nil_iff (h : InContext input i j atStart atEnd) : slice input i j ≠ [] ↔ i < j := by
  rw [Ne, slice_eq_nil_iff h.within]
  have hij := h.within.1
  omega

end InContext

/-! ## Relations that read words in context -/

/-- In each context the relations hold of the pieces whose words are those of a language. -/
def ReadsInContext (R : List Char → Pieces) (L : Bool → Bool → Language Char) : Prop :=
  ∀ ⦃input i j atStart atEnd⦄, InContext input i j atStart atEnd →
    (R input i j ↔ slice input i j ∈ L atStart atEnd)

namespace ReadsInContext

variable {R S : List Char → Pieces} {L M : Bool → Bool → Language Char}

theorem mem_nonEmpty_iff (hL : ReadsInContext R L) (h : InContext input i j atStart atEnd) :
    slice input i j ∈ nonEmpty (L atStart atEnd) ↔ R input i j ∧ i < j := by
  rw [mem_nonEmpty, h.ne_nil_iff, hL h]

theorem nil_mem_iff (hL : ReadsInContext R L) (h : InContext input i i atStart atEnd) :
    [] ∈ L atStart atEnd ↔ R input i i := by
  rw [hL h, slice_self]

/-- The words of a concatenation: both parts are non-empty, or one of them, or none. -/
def concatWords (L M : Bool → Bool → Language Char) (atStart atEnd : Bool) : Language Char :=
  nonEmpty (L atStart false) * nonEmpty (M false atEnd) +
    (emptyPart (L atStart false) * nonEmpty (M atStart atEnd) +
      (nonEmpty (L atStart atEnd) * emptyPart (M false atEnd) +
        emptyPart (L atStart atEnd) * emptyPart (M atStart atEnd)))

theorem concat (hL : ReadsInContext R L) (hM : ReadsInContext S M) :
    ReadsInContext (fun input => Concat (R input) (S input)) (concatWords L M) := by
  intro input i j atStart atEnd h
  have hij := h.within.1
  simp only [concatWords, Language.mem_add, mem_emptyPart_mul]
  rw [mem_mul_emptyPart, mem_emptyPart, slice_mem_mul h.within]
  constructor
  · intro hparts
    obtain ⟨k, hik, hkj, hR, hS⟩ := hparts
    rcases Nat.lt_or_eq_of_le hik with hik' | rfl <;> rcases Nat.lt_or_eq_of_le hkj with hkj' | rfl
    · exact Or.inl ⟨k, hik, hkj, (hL.mem_nonEmpty_iff (h.left hik hkj')).2 ⟨hR, hik'⟩,
        (hM.mem_nonEmpty_iff (h.right hik' hkj)).2 ⟨hS, hkj'⟩⟩
    · exact Or.inr (Or.inr (Or.inl ⟨(hL.mem_nonEmpty_iff h).2 ⟨hR, hik'⟩, (hM.nil_mem_iff (h.right hik' hkj)).2 hS⟩))
    · exact Or.inr (Or.inl ⟨(hL.nil_mem_iff (h.left hik hkj')).2 hR, (hM.mem_nonEmpty_iff h).2 ⟨hS, hkj'⟩⟩)
    · exact Or.inr (Or.inr (Or.inr ⟨(hL.nil_mem_iff h).2 hR, (hM h).1 hS, slice_self input i⟩))
  · intro hwords
    rcases hwords with ⟨k, hik, hkj, hu, hv⟩ | ⟨hu, hv⟩ | ⟨hu, hv⟩ | ⟨hu, hv, hnil⟩
    · have hik' := lt_of_slice_ne_nil hik hu.2
      have hkj' := lt_of_slice_ne_nil hkj hv.2
      exact ⟨k, hik, hkj, ((hL.mem_nonEmpty_iff (h.left hik hkj')).1 hu).1,
        ((hM.mem_nonEmpty_iff (h.right hik' hkj)).1 hv).1⟩
    · obtain ⟨hS, hlt⟩ := (hM.mem_nonEmpty_iff h).1 hv
      exact ⟨i, Nat.le_refl i, hij, (hL.nil_mem_iff (h.left (Nat.le_refl i) hlt)).1 hu, hS⟩
    · obtain ⟨hR, hlt⟩ := (hL.mem_nonEmpty_iff h).1 hu
      exact ⟨j, hij, Nat.le_refl j, hR, (hM.nil_mem_iff (h.right hlt (Nat.le_refl j))).1 hv⟩
    · obtain rfl := (slice_eq_nil_iff h.within).1 hnil
      exact ⟨i, hij, hij, (hL.nil_mem_iff h).1 hu, (hM h).2 hv⟩

/-- The words of a star: the empty one, one that is not empty, or a first one, some inner ones and a last one. -/
def starWords (L : Bool → Bool → Language Char) (atStart atEnd : Bool) : Language Char :=
  1 + (nonEmpty (L atStart atEnd) +
    nonEmpty (L atStart false) * (KStar.kstar (nonEmpty (L false false)) * nonEmpty (L false atEnd)))

theorem star (hL : ReadsInContext R L) :
    ReadsInContext (fun input => Star (R input)) (starWords L) := by
  intro input i j atStart atEnd h
  have hinner : ∀ {p q}, i < p → p ≤ q → q < j →
      (Star (R input) p q ↔ slice input p q ∈ KStar.kstar (nonEmpty (L false false))) := by
    intro p q hip hpq hqj
    rw [kstar_nonEmpty]
    exact star_iff_slice_mem (h.inner hip hpq hqj).within fun x y hpx hxy hyq =>
      hL (h.inner (by omega) hxy (by omega))
  refine star_iff_parts.trans ?_
  simp only [starWords, Language.mem_add, Language.mem_one, slice_eq_nil_iff h.within, hL.mem_nonEmpty_iff h,
    slice_mem_mul h.within]
  refine or_congr_right (or_congr_right ?_)
  constructor
  · intro hparts
    obtain ⟨p, q, hip, hpq, hqj, hR, hstar, hR'⟩ := hparts
    have hfirst := h.left (Nat.le_of_lt hip) (Nat.lt_of_le_of_lt hpq hqj)
    have hlast := h.right (Nat.lt_of_lt_of_le hip hpq) (Nat.le_of_lt hqj)
    refine ⟨p, Nat.le_of_lt hip, by omega, (hL.mem_nonEmpty_iff hfirst).2 ⟨hR, hip⟩, ?_⟩
    exact (slice_mem_mul ⟨by omega, h.within.2⟩).2
      ⟨q, hpq, Nat.le_of_lt hqj, (hinner hip hpq hqj).1 hstar, (hL.mem_nonEmpty_iff hlast).2 ⟨hR', hqj⟩⟩
  · intro hparts
    obtain ⟨p, hip, hpj, hu, hrest⟩ := hparts
    obtain ⟨q, hpq, hqj, hv, hw⟩ := (slice_mem_mul ⟨hpj, h.within.2⟩).1 hrest
    have hip' := lt_of_slice_ne_nil hip hu.2
    have hqj' := lt_of_slice_ne_nil hqj hw.2
    have hfirst := h.left hip (Nat.lt_of_le_of_lt hpq hqj')
    have hlast := h.right (Nat.lt_of_lt_of_le hip' hpq) hqj
    exact ⟨p, q, hip', hpq, hqj', ((hL.mem_nonEmpty_iff hfirst).1 hu).1, (hinner hip' hpq hqj').2 hv,
      ((hL.mem_nonEmpty_iff hlast).1 hw).1⟩

end ReadsInContext

end Pieces

/-! ## Expressions in context -/

namespace Pool

variable {pool later : Pool} {e : Expr} {request : Node} {word input : List Char} {atStart atEnd : Bool}

/-- The words of the pieces that an expression matches in a context. -/
def contextLanguage (pool : Pool) (e : Expr) (atStart atEnd : Bool) : Language Char :=
  {word | ∃ input i j, Pieces.InContext input i j atStart atEnd ∧ Pieces.slice input i j = word ∧
    pool.Matches input e i j}

/-- The words of a node in a context, by those of its operands. -/
def nodeContextLanguage (pool : Pool) (request : Node) (atStart atEnd : Bool) : Language Char :=
  match request with
  | .empty => 0
  | .epsilon => 1
  | .startAnchor => if atStart = true then 1 else 0
  | .endAnchor => if atEnd = true then 1 else 0
  | .range interval => {word | ∃ c, c ∈ interval ∧ word = [c]}
  | .binary .union l r => pool.contextLanguage l atStart atEnd + pool.contextLanguage r atStart atEnd
  | .binary .intersect l r =>
    BinaryOp.intersect.language (pool.contextLanguage l atStart atEnd) (pool.contextLanguage r atStart atEnd)
  | .binary .concat l r =>
    Pieces.ReadsInContext.concatWords (pool.contextLanguage l) (pool.contextLanguage r) atStart atEnd
  | .unary .star s => Pieces.ReadsInContext.starWords (pool.contextLanguage s) atStart atEnd
  | .unary .negate s => UnaryOp.negate.language (pool.contextLanguage s atStart atEnd)

theorem contextLanguage_of_reads {L : Bool → Bool → Language Char}
    (h : Pieces.ReadsInContext (fun input => pool.Matches input e) L) : pool.contextLanguage e = L := by
  funext atStart atEnd
  refine Language.ext fun word => ?_
  constructor
  · intro hparts
    obtain ⟨input, i, j, hcontext, hword, hmatch⟩ := hparts
    exact hword ▸ (h hcontext).1 hmatch
  · intro hword
    obtain ⟨input, i, j, hcontext, hslice⟩ := Pieces.exists_inContext word atStart atEnd
    exact ⟨input, i, j, hcontext, hslice, (h hcontext).2 (hslice ▸ hword)⟩

private theorem readsInContext_node
    (hops : ∀ o ∈ request.operands,
      Pieces.ReadsInContext (fun input => pool.Matches input o) (pool.contextLanguage o)) :
    Pieces.ReadsInContext (fun input => pool.NodeMatches input request) (pool.nodeContextLanguage request) := by
  intro input i j atStart atEnd h
  cases request with
  | empty => exact iff_of_false not_false (Language.notMem_zero _)
  | epsilon => exact (Pieces.slice_eq_nil_iff h.within).symm
  | startAnchor =>
      show i = 0 ∧ j = 0 ↔ Pieces.slice input i j ∈ (if atStart = true then 1 else 0 : Language Char)
      have hij := h.within.1
      split
      · rename_i hstart
        rw [Language.mem_one, Pieces.slice_eq_nil_iff h.within, h.start_iff.2 hstart]
        omega
      · rename_i hstart
        exact iff_of_false (fun hzero => hstart (h.start_iff.1 hzero.1)) (Language.notMem_zero _)
  | endAnchor =>
      show i = input.length ∧ j = input.length ↔
        Pieces.slice input i j ∈ (if atEnd = true then 1 else 0 : Language Char)
      split
      · rename_i hend
        rw [Language.mem_one, Pieces.slice_eq_nil_iff h.within, h.end_iff.2 hend]
        exact and_iff_left rfl
      · rename_i hend
        exact iff_of_false (fun hlast => hend (h.end_iff.1 hlast.2)) (Language.notMem_zero _)
  | range interval => exact Pieces.Reads.symbol i j h.within
  | binary op l r =>
      obtain ⟨hl, hr⟩ := Node.forall_operands_binary.1 hops
      cases op with
      | union => exact or_congr (hl h) (hr h)
      | intersect => exact and_congr (hl h) (hr h)
      | concat => exact hl.concat hr h
  | unary op s =>
      have hs := Node.forall_operands_unary.1 hops
      cases op with
      | star => exact hs.star h
      | negate => exact not_congr (hs h)

private theorem readsInContext_both (pool : Pool) (e : Expr) :
    Pieces.ReadsInContext (fun input => pool.Matches input e) (pool.contextLanguage e) ∧
      pool.contextLanguage e = pool.nodeContextLanguage (pool.node e) := by
  induction e using operandInduction pool with
  | step e ih =>
      have hnode := readsInContext_node fun o ho => (ih o ho).1
      have hreads : Pieces.ReadsInContext (fun input => pool.Matches input e)
          (pool.nodeContextLanguage (pool.node e)) := by
        simpa only [matches_eq] using hnode
      have heq := contextLanguage_of_reads hreads
      exact ⟨heq ▸ hreads, heq⟩

/-- The context and the word of a piece decide whether it is matched. -/
theorem readsInContext (pool : Pool) (e : Expr) :
    Pieces.ReadsInContext (fun input => pool.Matches input e) (pool.contextLanguage e) :=
  (readsInContext_both pool e).1

theorem contextLanguage_of_node {n : Node} (h : pool.node e = n) :
    pool.contextLanguage e = pool.nodeContextLanguage n := by
  rw [(readsInContext_both pool e).2, h]

theorem contextLanguage_of_anchorFree (hfree : pool.AnchorFree e) :
    pool.contextLanguage e atStart atEnd = pool.language e := by
  have hreads : Pieces.ReadsInContext (fun input => pool.Matches input e) fun _ _ => pool.language e :=
    fun _ i j _ _ h => reads_language hfree i j h.within
  rw [contextLanguage_of_reads hreads]

theorem Extends.contextLanguage_eq (hext : Extends pool later) (he : pool.Has e) :
    later.contextLanguage e = pool.contextLanguage e := by
  refine contextLanguage_of_reads ?_
  simpa only [hext.matches_eq he] using readsInContext pool e

/-! ## Occurrences -/

private theorem slice_mem_someWords {i j : Nat} (h : Pieces.Within input i j) :
    Pieces.slice input i j ∈ nonEmpty ⊤ ↔ i < j := by
  have hcontext := Pieces.inContext_decide h
  rw [mem_nonEmpty, hcontext.ne_nil_iff]
  exact and_iff_right trivial

/-- An expression occurs in an input as the whole of it, in front, at the back, or in the middle. -/
theorem occurs_iff (pool : Pool) (e : Expr) (input : List Char) :
    pool.Occurs input e ↔ input ∈ pool.contextLanguage e true true +
      (pool.contextLanguage e true false * nonEmpty ⊤ +
        (nonEmpty ⊤ * pool.contextLanguage e false true +
          nonEmpty ⊤ * (pool.contextLanguage e false false * nonEmpty ⊤))) := by
  have hwhole : Pieces.Within input 0 input.length := ⟨Nat.zero_le _, Nat.le_refl _⟩
  conv_rhs => rw [← Pieces.slice_all input]
  simp only [Language.mem_add, Pieces.slice_mem_mul hwhole]
  constructor
  · intro hparts
    obtain ⟨i, j, hij, hmatch⟩ := hparts
    have hword := (readsInContext pool e (Pieces.inContext_decide hij)).1 hmatch
    have hfront : Pieces.Within input 0 i := ⟨Nat.zero_le i, Nat.le_trans hij.1 hij.2⟩
    have hback : Pieces.Within input j input.length := ⟨hij.2, Nat.le_refl _⟩
    by_cases hi : i = 0 <;> by_cases hj : j = input.length <;> simp only [hi, hj, decide_true, decide_false] at hword
    · exact Or.inl hword
    · refine Or.inr (Or.inl ⟨j, Nat.zero_le j, hij.2, hword, (slice_mem_someWords hback).2 ?_⟩)
      exact Nat.lt_of_le_of_ne hij.2 hj
    · refine Or.inr (Or.inr (Or.inl ⟨i, Nat.zero_le i, hfront.2, (slice_mem_someWords hfront).2 ?_, hword⟩))
      exact Nat.pos_of_ne_zero hi
    · refine Or.inr (Or.inr (Or.inr ⟨i, Nat.zero_le i, hfront.2, (slice_mem_someWords hfront).2 ?_, ?_⟩))
      · exact Nat.pos_of_ne_zero hi
      · refine (Pieces.slice_mem_mul ⟨hfront.2, Nat.le_refl _⟩).2 ⟨j, hij.1, hij.2, hword, ?_⟩
        exact (slice_mem_someWords hback).2 (Nat.lt_of_le_of_ne hij.2 hj)
  · intro h
    rcases h with hword | ⟨j, _, hj, hword, hsome⟩ | ⟨i, _, hi, hsome, hword⟩ | ⟨i, _, hi, hsome, hrest⟩
    · exact ⟨0, input.length, hwhole, (readsInContext pool e ⟨hwhole, by simp, by simp⟩).2 hword⟩
    · have hlt := (slice_mem_someWords ⟨hj, Nat.le_refl _⟩).1 hsome
      have hcontext : Pieces.InContext input 0 j true false := ⟨⟨Nat.zero_le j, hj⟩, by simp, by simp; omega⟩
      exact ⟨0, j, hcontext.within, (readsInContext pool e hcontext).2 hword⟩
    · have hlt := (slice_mem_someWords ⟨Nat.zero_le i, hi⟩).1 hsome
      have hcontext : Pieces.InContext input i input.length false true := ⟨⟨hi, Nat.le_refl _⟩, by simp; omega, by simp⟩
      exact ⟨i, input.length, hcontext.within, (readsInContext pool e hcontext).2 hword⟩
    · obtain ⟨j, hij, hj, hword, hsome'⟩ := (Pieces.slice_mem_mul ⟨hi, Nat.le_refl _⟩).1 hrest
      have hlt := (slice_mem_someWords ⟨Nat.zero_le i, hi⟩).1 hsome
      have hlt' := (slice_mem_someWords ⟨hj, Nat.le_refl _⟩).1 hsome'
      have hcontext : Pieces.InContext input i j false false := ⟨⟨hij, hj⟩, by simp; omega, by simp; omega⟩
      exact ⟨i, j, hcontext.within, (readsInContext pool e hcontext).2 hword⟩

end Pool

end RegexAlgebra
