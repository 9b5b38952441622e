import RegexAlgebra.Proofs.Construction
import RegexAlgebra.Semantics.Words

/-! # Pieces and words

An expression without anchors matches a piece or not according to the word of the piece alone, and the words are those
of its language. So what the constructors keep of the pieces they keep of the language.
-/

namespace RegexAlgebra

namespace Pieces

variable {input u v : List Char} {R S : Pieces} {L M : Language Char} {i j k : Nat}

/-! ## Words of pieces -/

@[simp] theorem slice_self (input : List Char) (i : Nat) : slice input i i = [] := by
  simp [slice]

theorem slice_all (input : List Char) : slice input 0 input.length = input := by
  simp [slice]

theorem length_slice (h : Within input i j) : (slice input i j).length = j - i := by
  obtain ⟨hij, hj⟩ := h
  rw [slice, List.length_take, List.length_drop]
  omega

theorem slice_eq_nil_iff (h : Within input i j) : slice input i j = [] ↔ i = j := by
  have hij := h.1
  rw [← List.length_eq_zero_iff, length_slice h]
  omega

theorem slice_append (input : List Char) (hik : i ≤ k) (hkj : k ≤ j) :
    slice input i k ++ slice input k j = slice input i j := by
  have hdrop : input.drop k = (input.drop i).drop (k - i) := by
    rw [List.drop_drop, Nat.add_sub_cancel' hik]
  rw [slice, slice, slice, hdrop, show j - i = (k - i) + (j - k) by omega, List.take_add]

/-- A piece whose word is cut in two is cut at a position. -/
theorem exists_cut (h : Within input i j) (hword : slice input i j = u ++ v) :
    ∃ k, i ≤ k ∧ k ≤ j ∧ slice input i k = u ∧ slice input k j = v := by
  have hlength := length_slice h
  rw [hword, List.length_append] at hlength
  have hij := h.1
  have hkj : i + u.length ≤ j := by omega
  have happend := slice_append input (Nat.le_add_right i u.length) hkj
  rw [hword] at happend
  have hlen : (slice input i (i + u.length)).length = u.length := by
    rw [length_slice ⟨by omega, Nat.le_trans hkj h.2⟩]
    omega
  obtain ⟨hu, hv⟩ := List.append_inj happend hlen
  exact ⟨i + u.length, by omega, hkj, hu, hv⟩

theorem slice_mem_mul (h : Within input i j) :
    slice input i j ∈ L * M ↔ ∃ k, i ≤ k ∧ k ≤ j ∧ slice input i k ∈ L ∧ slice input k j ∈ M := by
  rw [Language.mem_mul]
  constructor
  · intro hparts
    obtain ⟨u, hu, v, hv, hword⟩ := hparts
    obtain ⟨k, hik, hkj, rfl, rfl⟩ := exists_cut h hword.symm
    exact ⟨k, hik, hkj, hu, hv⟩
  · intro hparts
    obtain ⟨k, hik, hkj, hu, hv⟩ := hparts
    exact ⟨_, hu, _, hv, slice_append input hik hkj⟩

theorem slice_succ {c : Char} (hget : input[i]? = some c) : slice input i (i + 1) = [c] := by
  have hi : i < input.length := (List.getElem?_eq_some_iff.1 hget).1
  have hc : input[i] = c := (List.getElem?_eq_some_iff.1 hget).2
  rw [slice, List.drop_eq_getElem_cons hi, hc]
  simp

theorem slice_eq_singleton {c : Char} (h : Within input i j) (hword : slice input i j = [c]) :
    j = i + 1 ∧ input[i]? = some c := by
  have hlength := length_slice h
  have hij := h.1
  rw [hword, List.length_singleton] at hlength
  have hj : j = i + 1 := by omega
  subst hj
  have hi : i < input.length := h.2
  refine ⟨rfl, ?_⟩
  rw [slice_succ (List.getElem?_eq_getElem hi)] at hword
  rw [List.getElem?_eq_getElem hi, List.head_eq_of_cons_eq hword]

theorem append_mem_kstar (hu : u ∈ L) (hv : v ∈ KStar.kstar L) : u ++ v ∈ KStar.kstar L := by
  obtain ⟨words, rfl, hwords⟩ := Language.mem_kstar.1 hv
  exact Language.mem_kstar.2 ⟨u :: words, by simp, List.forall_mem_cons.2 ⟨hu, hwords⟩⟩

/-! ## Relations that read words -/

/-- A star reads a piece word by word if its relation does so inside the piece. -/
theorem star_iff_slice_mem (hij : Within input i j)
    (hR : ∀ p q, i ≤ p → p ≤ q → q ≤ j → (R p q ↔ slice input p q ∈ L)) :
    Star R i j ↔ slice input i j ∈ KStar.kstar L := by
  constructor
  · intro h
    have hstep : ∀ p k, p ≤ k → k ≤ j → R p k → Star R k j → (i ≤ k → slice input k j ∈ KStar.kstar L) →
        i ≤ p → slice input p j ∈ KStar.kstar L := by
      intro p k hpk hkj hRk _ hrest hip
      rw [← slice_append input hpk hkj]
      exact append_mem_kstar ((hR p k hip hpk hkj).1 hRk) (hrest (Nat.le_trans hip hpk))
    refine Star.induction (motive := fun p => i ≤ p → slice input p j ∈ KStar.kstar L) h ?_ hstep (Nat.le_refl i)
    intro _
    rw [slice_self]
    exact Language.nil_mem_kstar L
  · intro h
    obtain ⟨words, hword, hwords⟩ := Language.mem_kstar.1 h
    clear h
    induction words generalizing i with
    | nil =>
        rw [List.flatten_nil, slice_eq_nil_iff hij] at hword
        exact hword ▸ .refl R i
    | cons word words ih =>
        rw [List.flatten_cons] at hword
        obtain ⟨k, hik, hkj, hu, hv⟩ := exists_cut hij hword
        have hhead : R i k := (hR i k (Nat.le_refl i) hik hkj).2 (hu ▸ hwords word List.mem_cons_self)
        have hrest : ∀ y ∈ words, y ∈ L := fun y hy => hwords y (List.mem_cons_of_mem word hy)
        have hR' : ∀ p q, k ≤ p → p ≤ q → q ≤ j → (R p q ↔ slice input p q ∈ L) :=
          fun p q hkp => hR p q (Nat.le_trans hik hkp)
        exact .head hik hhead (ih ⟨hkj, hij.2⟩ hR' hv hrest)

/-- The relation holds of the pieces whose words are those of a language. -/
def Reads (input : List Char) (R : Pieces) (L : Language Char) : Prop :=
  ∀ i j, Within input i j → (R i j ↔ slice input i j ∈ L)

namespace Reads

theorem symbol {P : Char → Prop} : Reads input (Symbol input P) {word | ∃ c, P c ∧ word = [c]} := by
  intro i j hij
  constructor
  · intro hparts
    obtain ⟨hj, c, hget, hc⟩ := hparts
    subst hj
    exact ⟨c, hc, slice_succ hget⟩
  · intro hparts
    obtain ⟨c, hc, hword⟩ := hparts
    obtain ⟨hj, hget⟩ := slice_eq_singleton hij hword
    exact ⟨hj, c, hget, hc⟩

theorem concat (hR : Reads input R L) (hS : Reads input S M) : Reads input (Concat R S) (L * M) := by
  intro i j hij
  rw [slice_mem_mul hij]
  refine exists_congr fun k => and_congr_right fun hik => and_congr_right fun hkj => ?_
  rw [hR i k ⟨hik, Nat.le_trans hkj hij.2⟩, hS k j ⟨hkj, hij.2⟩]

theorem star (hR : Reads input R L) : Reads input (Star R) (KStar.kstar L) :=
  fun _ _ hij => star_iff_slice_mem hij fun p q _ hpq hq => hR p q ⟨hpq, Nat.le_trans hq hij.2⟩

theorem congr (hR : Reads input R L) (hagree : Agree input S R) : Reads input S L :=
  fun i j hij => (hagree i j hij).trans (hR i j hij)

/-- The word of an input is read from one end of it to the other. -/
theorem mem_iff (hR : Reads input R L) : input ∈ L ↔ R 0 input.length := by
  rw [hR 0 input.length ⟨Nat.zero_le _, Nat.le_refl _⟩, slice_all]

end Reads

end Pieces

/-- The operator on languages that a binary operator of expressions stands for. -/
def BinaryOp.language (op : BinaryOp) (L M : Language Char) : Language Char :=
  match op with
  | .union => L + M
  | .intersect => {word | word ∈ L ∧ word ∈ M}
  | .concat => L * M

/-- The operator on languages that a unary operator of expressions stands for. -/
def UnaryOp.language (op : UnaryOp) (L : Language Char) : Language Char :=
  match op with
  | .star => KStar.kstar L
  | .negate => {word | word ∉ L}

/-! ## Words after a symbol -/

/-- What is left of the words of a language that start with a symbol. -/
def after (c : Char) (L : Language Char) : Language Char := {word | c :: word ∈ L}

section After

variable {c : Char} {L M : Language Char} {word : List Char}

@[simp] theorem mem_after : word ∈ after c L ↔ c :: word ∈ L := Iff.rfl

theorem after_one : after c (1 : Language Char) = 0 :=
  Language.ext fun word => iff_of_false (List.cons_ne_nil c word) (Language.notMem_zero word)

theorem nil_mem_mul : [] ∈ L * M ↔ [] ∈ L ∧ [] ∈ M := by
  rw [Language.mem_mul]
  constructor
  · intro hparts
    obtain ⟨u, hu, v, hv, huv⟩ := hparts
    obtain ⟨rfl, rfl⟩ := List.append_eq_nil_iff.1 huv
    exact ⟨hu, hv⟩
  · intro hparts
    obtain ⟨hL, hM⟩ := hparts
    exact ⟨[], hL, [], hM, rfl⟩

/-- The symbol is the first of a word on the left, or the word on the left is empty. -/
theorem mem_after_mul : word ∈ after c (L * M) ↔ word ∈ after c L * M ∨ [] ∈ L ∧ word ∈ after c M := by
  rw [mem_after, Language.mem_mul, Language.mem_mul]
  constructor
  · intro hparts
    obtain ⟨u, hu, v, hv, huv⟩ := hparts
    cases u with
    | nil =>
        obtain rfl : v = c :: word := huv
        exact Or.inr ⟨hu, hv⟩
    | cons d u =>
        obtain ⟨rfl, rfl⟩ := List.cons_eq_cons.1 huv
        exact Or.inl ⟨u, hu, v, hv, rfl⟩
  · intro h
    rcases h with ⟨u, hu, v, hv, rfl⟩ | ⟨hL, hM⟩
    · exact ⟨c :: u, hu, v, hv, rfl⟩
    · exact ⟨[], hL, c :: word, hM, rfl⟩

theorem after_kstar : after c (KStar.kstar L) = after c L * KStar.kstar L := by
  refine Language.ext fun word => ?_
  rw [mem_after, Language.mem_mul]
  constructor
  · intro h
    obtain ⟨words, hword, hwords⟩ := Language.mem_kstar.1 h
    -- The symbol is the first of the first word that is not empty.
    induction words with
    | nil => cases hword
    | cons u words ih =>
        have hu : u ∈ L := hwords u List.mem_cons_self
        have hrest : ∀ v ∈ words, v ∈ L := fun v hv => hwords v (List.mem_cons_of_mem u hv)
        cases u with
        | nil => exact ih hword hrest
        | cons d u =>
            obtain ⟨rfl, rfl⟩ := List.cons_eq_cons.1 hword
            exact ⟨u, hu, words.flatten, Language.join_mem_kstar hrest, rfl⟩
  · intro hparts
    obtain ⟨u, hu, v, hv, huv⟩ := hparts
    rw [← huv]
    exact Pieces.append_mem_kstar (mem_after.1 hu) hv

end After

namespace Pool

variable {pool later : Pool} {e f : Expr} {request : Node} {input : List Char}

/-! ## The language of an expression -/

/-- The words of a node, by those of its operands. -/
noncomputable def nodeLanguage (pool : Pool) : Node → Language Char
  | .empty => 0
  | .epsilon => 1
  | .startAnchor => 0
  | .endAnchor => 0
  | .range interval => {word | ∃ c, c ∈ interval ∧ word = [c]}
  | .binary op left right => op.language (pool.language left) (pool.language right)
  | .unary op sub => op.language (pool.language sub)

theorem language_eq (pool : Pool) (e : Expr) : pool.language e = pool.nodeLanguage (pool.node e) := by
  rw [language]
  split <;> rename_i hn <;> rw [hn] <;> rfl

theorem language_of_node {n : Node} (h : pool.node e = n) : pool.language e = pool.nodeLanguage n := by
  rw [language_eq, h]

private theorem reads_node (hleaf : request.isAnchor = false)
    (hops : ∀ o ∈ request.operands, Pieces.Reads input (pool.Matches input o) (pool.language o)) :
    Pieces.Reads input (pool.NodeMatches input request) (pool.nodeLanguage request) := by
  cases request with
  | empty => exact fun i j _ => iff_of_false not_false (Language.notMem_zero _)
  | epsilon => exact fun i j hij => (Pieces.slice_eq_nil_iff hij).symm
  | startAnchor => cases hleaf
  | endAnchor => cases hleaf
  | range interval => exact .symbol
  | binary op l r =>
      obtain ⟨hl, hr⟩ := Node.forall_operands_binary.1 hops
      cases op with
      | union => exact fun i j hij => or_congr (hl i j hij) (hr i j hij)
      | intersect => exact fun i j hij => and_congr (hl i j hij) (hr i j hij)
      | concat => exact hl.concat hr
  | unary op s =>
      have hs := Node.forall_operands_unary.1 hops
      cases op with
      | star => exact hs.star
      | negate => exact fun i j hij => not_congr (hs i j hij)

/-- Without anchors the word of a piece decides whether the piece is matched. -/
theorem reads_language (hfree : pool.AnchorFree e) :
    Pieces.Reads input (pool.Matches input e) (pool.language e) := by
  induction e using operandInduction pool with
  | step e ih =>
      rw [matches_eq, language_eq]
      exact reads_node (anchorFree_iff.1 hfree).1 fun o ho => ih o ho (hfree.operand ho)

theorem Extends.language_eq (hext : Extends pool later) (he : pool.Has e) (hfree : pool.AnchorFree e) :
    later.language e = pool.language e := by
  refine Language.ext fun word => ?_
  rw [(reads_language ((hext.anchorFree_iff he).2 hfree)).mem_iff, (reads_language hfree).mem_iff,
    hext.matches_eq he]

/-- An answer to a request without anchors has the words of the request. -/
theorem Answers.language_eq (h : pool.Answers request e) (hleaf : request.isAnchor = false)
    (hops : ∀ o ∈ request.operands, pool.AnchorFree o) : pool.language e = pool.nodeLanguage request := by
  refine Language.ext fun word => ?_
  have hreads := (reads_node hleaf fun o ho => reads_language (hops o ho)).congr (h.agree word)
  rw [(reads_language (h.anchorFree hleaf hops)).mem_iff, hreads.mem_iff]

theorem Settles.language_binary {op : BinaryOp} {built : Built} (h : pool.Settles (.binary op e f) built)
    (hfe : pool.AnchorFree e) (hff : pool.AnchorFree f) :
    built.pool.AnchorFree built.expr ∧
      built.pool.language built.expr = op.language (pool.language e) (pool.language f) := by
  have hext := h.remembers.toExtends
  have hanswer := h.answers
  obtain ⟨he, hf⟩ := Node.forall_operands_binary.1 h.operands_has
  have hops : ∀ o ∈ (Node.binary op e f).operands, built.pool.AnchorFree o :=
    Node.forall_operands_binary.2 ⟨(hext.anchorFree_iff he).2 hfe, (hext.anchorFree_iff hf).2 hff⟩
  refine ⟨hanswer.anchorFree rfl hops, ?_⟩
  rw [hanswer.language_eq rfl hops, nodeLanguage, hext.language_eq he hfe, hext.language_eq hf hff]

theorem Settles.language_unary {op : UnaryOp} {built : Built} (h : pool.Settles (.unary op e) built)
    (hfe : pool.AnchorFree e) :
    built.pool.AnchorFree built.expr ∧ built.pool.language built.expr = op.language (pool.language e) := by
  have hext := h.remembers.toExtends
  have hanswer := h.answers
  have he := Node.forall_operands_unary.1 h.operands_has
  have hops : ∀ o ∈ (Node.unary op e).operands, built.pool.AnchorFree o :=
    Node.forall_operands_unary.2 ((hext.anchorFree_iff he).2 hfe)
  refine ⟨hanswer.anchorFree rfl hops, ?_⟩
  rw [hanswer.language_eq rfl hops, nodeLanguage, hext.language_eq he hfe]

end Pool

end RegexAlgebra
