import RegexAlgebra.Proofs.Contents
import RegexAlgebra.Proofs.Records

/-! # The laws of unions and intersections

A handle is determined by its contents under the operator. So unions and intersections are associative, commutative and
idempotent on handles wherever the contents of an answer are those of the operands joined.

Ranges are the exception. Where one contains another, or where two are intersected, a chain keeps one in place of both
if they meet, and whether they meet depends on the order of the handles and of the operands.
-/

namespace RegexAlgebra

namespace Pool

variable {pool later : Pool} {op : BinaryOp} {e f a l r x : Expr} {xs ys : List Expr}

/-! ## Ranges that meet -/

/-- Two ranges in place of which the operator has one. -/
def Meet (pool : Pool) (op : BinaryOp) (x y : Expr) : Prop :=
  ∃ i j, pool.node x = .range i ∧ pool.node y = .range j ∧ (op = .union → i.containsInterval j = true)

/-- No two different ranges among the expressions meet. -/
def Apart (pool : Pool) (op : BinaryOp) (xs : List Expr) : Prop := ∀ x ∈ xs, ∀ y ∈ xs, pool.Meet op x y → x = y

theorem Apart.subset (h : pool.Apart op ys) (hsub : ∀ x ∈ xs, x ∈ ys) : pool.Apart op xs :=
  fun x hx y hy => h x (hsub x hx) y (hsub y hy)

theorem Apart.of_extends (hext : Extends pool later) (hxs : ∀ x ∈ xs, pool.Has x) (h : later.Apart op xs) :
    pool.Apart op xs := by
  rintro x hx y hy ⟨i, j, hi, hj, hcontains⟩
  refine h x hx y hy ⟨i, j, ?_, ?_, hcontains⟩
  · rw [hext.node_eq x (hxs x hx), hi]
  · rw [hext.node_eq y (hxs y hy), hj]

/-! ## What the rules say -/

/-- What the rules of unions and of intersections say of two operands, by the reason for which they say it. -/
inductive RuleCase (pool : Pool) (op : BinaryOp) (e f : Expr) : Reduction → Prop
  | same (heq : e = f) : RuleCase pool op e f (.done e)
  | neutralLeft (h : pool.isNeutral op e = true) : RuleCase pool op e f (.done f)
  | neutralRight (h : pool.isNeutral op f = true) : RuleCase pool op e f (.done e)
  | absorbingLeft (h : pool.isAbsorbing op e = true) : RuleCase pool op e f (.done e)
  | absorbingRight (h : pool.isAbsorbing op f = true) : RuleCase pool op e f (.done f)
  | rightWithinLeft {i j : Interval} (hop : op = .union) (hne : e ≠ f) (hi : pool.node e = .range i)
      (hj : pool.node f = .range j) (h : i.containsInterval j = true) : RuleCase pool op e f (.done e)
  | leftWithinRight {i j : Interval} (hop : op = .union) (hne : e ≠ f) (hi : pool.node e = .range i)
      (hj : pool.node f = .range j) (h : j.containsInterval i = true) : RuleCase pool op e f (.done f)
  | common {i j : Interval} (hop : op = .intersect) (hne : e ≠ f) (hi : pool.node e = .range i)
      (hj : pool.node f = .range j) : RuleCase pool op e f (.range (i ∩ j))
  | chain (hne : e ≠ f) : RuleCase pool op e f (pool.chainRule op e f)

theorem unionRule_case (pool : Pool) (e f : Expr) : pool.RuleCase .union e f (pool.unionRule e f) := by
  unfold unionRule
  split
  · exact .same ‹_›
  rename_i hne
  split
  · exact .neutralLeft (by simp_all [isNeutral])
  split
  · exact .neutralRight (by simp_all [isNeutral])
  split
  · exact .absorbingLeft ‹_›
  split
  · exact .absorbingRight ‹_›
  split
  · rename_i i j hi hj
    rw [Node.asRange?_eq_some_iff] at hi hj
    split
    · exact .rightWithinLeft rfl hne hi hj ‹_›
    split
    · exact .leftWithinRight rfl hne hi hj ‹_›
    exact .chain hne
  · exact .chain hne

theorem intersectRule_case (pool : Pool) (e f : Expr) :
    pool.RuleCase .intersect e f (pool.intersectRule e f) := by
  unfold intersectRule
  split
  · exact .same ‹_›
  rename_i hne
  split
  · rename_i hempty
    rcases hempty with rfl | rfl
    · exact .absorbingLeft rfl
    · exact .absorbingRight rfl
  split
  · exact .neutralLeft ‹_›
  split
  · exact .neutralRight ‹_›
  split
  · rename_i i j hi hj
    rw [Node.asRange?_eq_some_iff] at hi hj
    exact .common rfl hne hi hj
  · exact .chain hne

theorem rule_case (hop : op ≠ .concat) (e f : Expr) : pool.RuleCase op e f (pool.rule op e f) := by
  cases op with
  | union => exact pool.unionRule_case e f
  | intersect => exact pool.intersectRule_case e f
  | concat => exact absurd rfl hop

/-! ## Answers that gather their operands -/

/-- An operand with itself is left alone. And where no ranges meet, the contents of the answer are those of the operands
joined. -/
structure Gathers (pool : Pool) (op : BinaryOp) (e f a : Expr) : Prop where
  same : e = f → a = e
  contents_eq : pool.Apart op (pool.elements op e ++ pool.elements op f) →
    pool.contents op a = pool.contents op e ⊔ pool.contents op f
  mem_or_mem : pool.Apart op (pool.elements op e ++ pool.elements op f) →
    ∀ x ∈ pool.elements op a, x ∈ pool.elements op e ∨ x ∈ pool.elements op f

namespace Gathers

theorem left (hle : pool.Apart op (pool.elements op e ++ pool.elements op f) →
    pool.contents op f ≤ pool.contents op e) : pool.Gathers op e f e where
  same := fun _ => rfl
  contents_eq := fun hapart => (sup_eq_left.2 (hle hapart)).symm
  mem_or_mem := fun _ _ => Or.inl

theorem right (hle : pool.Apart op (pool.elements op e ++ pool.elements op f) →
    pool.contents op e ≤ pool.contents op f) : pool.Gathers op e f f where
  same := Eq.symm
  contents_eq := fun hapart => (sup_eq_right.2 (hle hapart)).symm
  mem_or_mem := fun _ _ => Or.inr

theorem swap (h : pool.Gathers op f e a) (hne : e ≠ f) : pool.Gathers op e f a where
  same := fun heq => absurd heq hne
  contents_eq := fun hapart => by
    rw [sup_comm]
    exact h.contents_eq (hapart.subset fun x hx => by simpa [or_comm] using hx)
  mem_or_mem := fun hapart x hx =>
    (h.mem_or_mem (hapart.subset fun y hy => by simpa [or_comm] using hy) x hx).symm

theorem regroup {y z rest : Expr} (hne : e ≠ f) (hrest : pool.Gathers op y z rest) (h : pool.Gathers op x rest a)
    (hcontents : pool.contents op x ⊔ (pool.contents op y ⊔ pool.contents op z) =
      pool.contents op e ⊔ pool.contents op f)
    (hmem : ∀ w, w ∈ pool.elements op x ∨ w ∈ pool.elements op y ∨ w ∈ pool.elements op z →
      w ∈ pool.elements op e ∨ w ∈ pool.elements op f) : pool.Gathers op e f a := by
  have hinner : pool.Apart op (pool.elements op e ++ pool.elements op f) →
      pool.Apart op (pool.elements op y ++ pool.elements op z) := fun hapart =>
    hapart.subset fun w hw => List.mem_append.2 (hmem w (Or.inr (List.mem_append.1 hw)))
  have hrests : pool.Apart op (pool.elements op e ++ pool.elements op f) → ∀ w,
      w ∈ pool.elements op x ∨ w ∈ pool.elements op rest → w ∈ pool.elements op e ∨ w ∈ pool.elements op f :=
    fun hapart w hw => hmem w (hw.imp id (hrest.mem_or_mem (hinner hapart) w))
  have houter : pool.Apart op (pool.elements op e ++ pool.elements op f) →
      pool.Apart op (pool.elements op x ++ pool.elements op rest) := fun hapart =>
    hapart.subset fun w hw => List.mem_append.2 (hrests hapart w (List.mem_append.1 hw))
  refine ⟨fun heq => absurd heq hne, fun hapart => ?_, fun hapart w hw => ?_⟩
  · rw [h.contents_eq (houter hapart), hrest.contents_eq (hinner hapart), hcontents]
  · exact hrests hapart w (h.mem_or_mem (houter hapart) w hw)

/-- A stored chain. -/
theorem of_node (hform : pool.InNormalForm) (hop : op ≠ .concat) (ha : pool.Has a)
    (hn : pool.node a = .binary op e f) (hne : e ≠ f) : pool.Gathers op e f a where
  same := fun heq => absurd heq hne
  contents_eq := fun _ => hform.contents_of_chain hop ha hn
  mem_or_mem := fun _ x hx => by rwa [elements_of_chain hn, List.mem_append] at hx

theorem of_extends (h : pool.Gathers op e f a) (hext : Extends pool later) (he : pool.Has e) (hf : pool.Has f)
    (ha : pool.Has a) : later.Gathers op e f a := by
  have hhas : ∀ x ∈ pool.elements op e ++ pool.elements op f, pool.Has x := by
    intro x hx
    rcases List.mem_append.1 hx with hx | hx
    · exact InNormalForm.has_elements he x hx
    · exact InNormalForm.has_elements hf x hx
  refine ⟨h.same, fun hapart => ?_, fun hapart => ?_⟩ <;>
    rw [hext.elements_eq he, hext.elements_eq hf] at hapart <;> have hapart := hapart.of_extends hext hhas
  · rw [hext.contents_eq he, hext.contents_eq hf, hext.contents_eq ha]
    exact h.contents_eq hapart
  · rw [hext.elements_eq he, hext.elements_eq hf, hext.elements_eq ha]
    exact h.mem_or_mem hapart

end Gathers

/-! ## The rules gather -/

/-- The relation that the rules of chains make hold. -/
abbrev GathersChains (pool : Pool) (op : BinaryOp) (e f a : Expr) : Prop := op ≠ .concat → pool.Gathers op e f a

theorem chainRule_makes (hform : pool.InNormalForm) (hop : op ≠ .concat) (he : pool.Has e) (hf : pool.Has f)
    (hne : e ≠ f) : (pool.chainRule op e f).Makes GathersChains pool op e f := by
  rcases chainRule_cases op hne with ⟨head, tail, hn, heq⟩ | ⟨tail, hn, heq⟩ | ⟨head, tail, hn, heq⟩ | heq | ⟨_, heq⟩
    <;> rw [heq]
  · intro later rest answer hext hcanonical _ hrest hanswer hop
    have hn' := (hext.node_eq e he).trans hn
    have hcontents := hcanonical.contents_of_chain hop (hext.has he) hn'
    refine .regroup hne (hrest hop) (hanswer hop) (by rw [hcontents, sup_assoc]) fun w hw => ?_
    rw [elements_of_chain hn', List.mem_append, or_assoc]
    exact hw
  · refine fun _ => .right fun _ => ?_
    rw [hform.contents_of_chain hop hf hn]
    exact le_sup_left
  · intro later rest answer hext hcanonical _ hrest hanswer hop
    have hn' := (hext.node_eq f hf).trans hn
    have hcontents := hcanonical.contents_of_chain hop (hext.has hf) hn'
    refine .regroup hne (hrest hop) (hanswer hop) (by rw [hcontents, sup_left_comm]) fun w hw => ?_
    rw [elements_of_chain hn', List.mem_append, or_left_comm]
    exact hw
  · exact fun later answer _ h hop => (h hop).swap hne
  · exact fun later answer _ hcanonical hhas hn hop => .of_node hcanonical.toInNormalForm hop hhas hn hne

theorem Meet.eq (h : pool.Meet op e f) (hapart : pool.Apart op (pool.elements op e ++ pool.elements op f)) : e = f := by
  have hmeet := h
  obtain ⟨i, j, hi, hj, _⟩ := h
  have he : pool.elements op e = [e] := elements_of_element (by rw [hi]; rfl)
  have hf : pool.elements op f = [f] := elements_of_element (by rw [hj]; rfl)
  rw [he, hf] at hapart
  exact hapart e (by simp) f (by simp) hmeet

theorem rule_makes (hform : pool.InNormalForm) (hop : op ≠ .concat) (he : pool.Has e) (hf : pool.Has f) :
    (pool.rule op e f).Makes GathersChains pool op e f := by
  have hcase := pool.rule_case hop e f
  generalize pool.rule op e f = reduction at hcase
  cases hcase with
  | same heq => exact fun _ => .left fun _ => heq ▸ le_rfl
  | neutralLeft h =>
      have hbot := contents_of_neutral (hform.isAbsorbing_of_neutral h) h
      exact fun _ => .right fun _ => hbot ▸ bot_le
  | neutralRight h =>
      have hbot := contents_of_neutral (hform.isAbsorbing_of_neutral h) h
      exact fun _ => .left fun _ => hbot ▸ bot_le
  | absorbingLeft h => exact fun _ => .left fun _ => contents_of_absorbing h ▸ le_top
  | absorbingRight h => exact fun _ => .right fun _ => contents_of_absorbing h ▸ le_top
  | rightWithinLeft _ hne hi hj h =>
      have hmeet : pool.Meet op e f := ⟨_, _, hi, hj, fun _ => h⟩
      exact fun _ => .left fun hapart => absurd (hmeet.eq hapart) hne
  | leftWithinRight _ hne hi hj h =>
      have hmeet : pool.Meet op f e := ⟨_, _, hj, hi, fun _ => h⟩
      refine fun _ => .right fun hapart => absurd (hmeet.eq (hapart.subset fun x hx => ?_)).symm hne
      simpa [or_comm] using hx
  | common hintersect hne hi hj =>
      subst hintersect
      intro later answer hext _ _ _
      have hmeet : later.Meet .intersect e f :=
        ⟨_, _, (hext.node_eq e he).trans hi, (hext.node_eq f hf).trans hj, by simp⟩
      have hnot : ¬ later.Apart .intersect (later.elements .intersect e ++ later.elements .intersect f) :=
        fun hapart => hne (hmeet.eq hapart)
      exact ⟨fun heq => absurd heq hne, fun hapart => absurd hapart hnot, fun hapart => absurd hapart hnot⟩
  | chain hne => exact chainRule_makes hform hop he hf hne

theorem gathersChains_madeByRules : MadeByRules GathersChains where
  mono := fun hext he hf ha h hop => (h hop).of_extends hext he hf ha
  makes := fun {pool op e f} _ hcanonical he hf => by
    by_cases hop : op = .concat
    · exact Reduction.makes_of_forall (fun _ _ hchain => absurd hop hchain) pool _
    · exact rule_makes hcanonical.toInNormalForm hop he hf

/-! ## Laws -/

/-- To ask for the node gives the answer, and leaves the pool as it is. -/
def Knows (pool : Pool) (op : BinaryOp) (e f a : Expr) : Prop := pool.binary op e f = ⟨a, pool⟩

namespace Knows

variable {b c ab bc y : Expr}

theorem gathers (hknows : pool.Knows op e f a) (h : pool.Reachable) (hop : op ≠ .concat) (he : pool.Has e)
    (hf : pool.Has f) : pool.Has a ∧ pool.Gathers op e f a := by
  have hsettles := binary_settles h.sound op he hf
  rw [show pool.binary op e f = ⟨a, pool⟩ from hknows] at hsettles
  exact ⟨hsettles.answers.has, h.recorded gathersChains_madeByRules _ _ _ _ hsettles.answer?_eq hop⟩

theorem mono (hknows : pool.Knows op e f a) (h : pool.Reachable) (he : pool.Has e) (hf : pool.Has f)
    (hlater : pool.Later later) : later.Knows op e f a := by
  have hsettles := binary_settles h.sound op he hf
  rw [show pool.binary op e f = ⟨a, pool⟩ from hknows] at hsettles
  exact hsettles.binary_again (hlater.remembers h.sound)

theorem comm (hx : pool.Knows op a b x) (hy : pool.Knows op b a y) (h : pool.Reachable) (hop : op ≠ .concat)
    (ha : pool.Has a) (hb : pool.Has b) (hapart : pool.Apart op (pool.elements op a ++ pool.elements op b)) :
    x = y := by
  have hapart' : pool.Apart op (pool.elements op b ++ pool.elements op a) :=
    hapart.subset fun z hz => by simpa [or_comm] using hz
  obtain ⟨hhas, hgathers⟩ := hx.gathers h hop ha hb
  obtain ⟨hhas', hgathers'⟩ := hy.gathers h hop hb ha
  refine h.canonical.eq_of_contents hop hhas hhas' ?_
  rw [hgathers.contents_eq hapart, hgathers'.contents_eq hapart', sup_comm]

theorem assoc (hab : pool.Knows op a b ab) (hx : pool.Knows op ab c x) (hbc : pool.Knows op b c bc)
    (hy : pool.Knows op a bc y) (h : pool.Reachable) (hop : op ≠ .concat) (ha : pool.Has a) (hb : pool.Has b)
    (hc : pool.Has c)
    (hapart : pool.Apart op (pool.elements op a ++ pool.elements op b ++ pool.elements op c)) : x = y := by
  obtain ⟨hhasab, hgathersab⟩ := hab.gathers h hop ha hb
  obtain ⟨hhasbc, hgathersbc⟩ := hbc.gathers h hop hb hc
  obtain ⟨hhasx, hgathersx⟩ := hx.gathers h hop hhasab hc
  obtain ⟨hhasy, hgathersy⟩ := hy.gathers h hop ha hhasbc
  -- All that is joined on the way are elements of the three operands.
  have hapartab : pool.Apart op (pool.elements op a ++ pool.elements op b) :=
    hapart.subset fun z hz => List.mem_append_left _ hz
  have hapartbc : pool.Apart op (pool.elements op b ++ pool.elements op c) :=
    hapart.subset fun z hz => by
      rw [List.append_assoc]
      exact List.mem_append_right _ hz
  have hapartx : pool.Apart op (pool.elements op ab ++ pool.elements op c) := hapart.subset fun z hz =>
    List.mem_append.2 ((List.mem_append.1 hz).imp_left fun hz => List.mem_append.2 (hgathersab.mem_or_mem hapartab z hz))
  have haparty : pool.Apart op (pool.elements op a ++ pool.elements op bc) := hapart.subset fun z hz => by
    rw [List.append_assoc]
    exact List.mem_append.2
      ((List.mem_append.1 hz).imp_right fun hz => List.mem_append.2 (hgathersbc.mem_or_mem hapartbc z hz))
  refine h.canonical.eq_of_contents hop hhasx hhasy ?_
  calc pool.contents op x = pool.contents op a ⊔ pool.contents op b ⊔ pool.contents op c := by
        rw [hgathersx.contents_eq hapartx, hgathersab.contents_eq hapartab]
    _ = pool.contents op a ⊔ (pool.contents op b ⊔ pool.contents op c) := sup_assoc _ _ _
    _ = pool.contents op y := by rw [hgathersy.contents_eq haparty, hgathersbc.contents_eq hapartbc]

theorem absorb (hy : pool.Knows op a x y ∨ pool.Knows op x a y) (h : pool.Reachable) (hop : op ≠ .concat)
    (ha : pool.Has a) (hapart : pool.Apart op (pool.elements op a)) (hx : x ∈ pool.elements op a) : y = a := by
  have hform := h.canonical.toInNormalForm
  have hhas : pool.Has x := InNormalForm.has_elements ha x hx
  have hle := hform.contents_le_of_mem hop ha hx
  have hwithin : ∀ z, z ∈ pool.elements op a ∨ z ∈ pool.elements op x → z ∈ pool.elements op a := by
    rw [elements_of_mem hx]
    rintro z (hz | hz)
    · exact hz
    · exact List.mem_singleton.1 hz ▸ hx
  rcases hy with hy | hy
  · obtain ⟨hhasy, hgathers⟩ := hy.gathers h hop ha hhas
    refine hform.eq_of_contents hop hhasy ha ?_
    rw [hgathers.contents_eq (hapart.subset fun z hz => hwithin z (List.mem_append.1 hz)), sup_eq_left.2 hle]
  · obtain ⟨hhasy, hgathers⟩ := hy.gathers h hop hhas ha
    refine hform.eq_of_contents hop hhasy ha ?_
    rw [hgathers.contents_eq (hapart.subset fun z hz => hwithin z (List.mem_append.1 hz).symm), sup_eq_right.2 hle]

end Knows

theorem Reachable.knows_binary (h : pool.Reachable) (op : BinaryOp) (he : pool.Has e) (hf : pool.Has f)
    (hlater : (pool.binary op e f).pool.Later later) :
    later.Has (pool.binary op e f).expr ∧ later.Knows op e f (pool.binary op e f).expr := by
  have hsettles := binary_settles h.sound op he hf
  exact ⟨hlater.has hsettles.sound hsettles.answers.has, hsettles.binary_again (hlater.remembers hsettles.sound)⟩

/-- On every pool with a history, what a union or an intersection was once answered by is its answer for good. An
expression with itself is left alone. As long as the ranges in the chains are apart, the order of two operands makes no
difference, nor does the grouping of three, and an element of a chain is absorbed by the chain on either side. -/
theorem chain_laws (h : pool.Reachable) (hop : op ≠ .concat) :
    (∀ a b later, pool.Has a → pool.Has b → (pool.binary op a b).pool.Later later →
      later.Knows op a b (pool.binary op a b).expr) ∧
    (∀ a x, pool.Has a → pool.Knows op a a x → x = a) ∧
    (∀ a b x y, pool.Has a → pool.Has b → pool.Apart op (pool.elements op a ++ pool.elements op b) →
      pool.Knows op a b x → pool.Knows op b a y → x = y) ∧
    (∀ a b c ab bc x y, pool.Has a → pool.Has b → pool.Has c →
      pool.Apart op (pool.elements op a ++ pool.elements op b ++ pool.elements op c) →
      pool.Knows op a b ab → pool.Knows op ab c x → pool.Knows op b c bc → pool.Knows op a bc y → x = y) ∧
    ∀ a x y, pool.Has a → pool.Apart op (pool.elements op a) → x ∈ pool.elements op a →
      pool.Knows op a x y ∨ pool.Knows op x a y → y = a := by
  refine ⟨fun a b later ha hb hlater => ?_, fun a x ha hx => (hx.gathers h hop ha ha).2.same rfl, ?_, ?_, ?_⟩
  · exact (h.knows_binary op ha hb hlater).2
  · exact fun a b x y ha hb hapart hx hy => hx.comm hy h hop ha hb hapart
  · exact fun a b c ab bc x y ha hb hc hapart hab hx hbc hy => hab.assoc hx hbc hy h hop ha hb hc hapart
  · exact fun a x y ha hapart hx hy => Knows.absorb hy h hop ha hapart hx

/-- A lower case letter and a digit, under the handles 4 and 5. -/
def alphanumeric : Pool := (lowercase.pool.range '0' '9').pool

theorem alphanumeric_eq : alphanumeric = ((new.store (.range ⟨'a', 'z'⟩)).pool.store (.range ⟨'0', '9'⟩)).pool := by
  have hopen : (new.store (.range ⟨'a', 'z'⟩)).pool.answer? (.range ⟨'0', '9'⟩) = none := by
    rw [answer?_store_of_ne (by decide), answer?_new]
  rw [alphanumeric, lowercase_eq, range_of_open hopen (by decide)]

/-- Their union. -/
def symbols : Built := alphanumeric.union ⟨4⟩ ⟨5⟩

theorem symbols_eq : symbols = alphanumeric.store (.binary .union ⟨4⟩ ⟨5⟩) := by
  have hrule : alphanumeric.rule .union ⟨4⟩ ⟨5⟩ = .keep := by rw [alphanumeric_eq]; decide +kernel
  have hopen : alphanumeric.answer? (.binary .union ⟨4⟩ ⟨5⟩) = none := by
    simp [alphanumeric_eq, answer?_store_of_ne, answer?_new]
  rw [symbols, union, binary_of_open hopen, hrule]

theorem reachable_alphanumeric : alphanumeric.Reachable ∧ alphanumeric.Has ⟨4⟩ ∧ alphanumeric.Has ⟨5⟩ := by
  refine ⟨reachable_lowercase.range '0' '9', ?_⟩
  rw [alphanumeric_eq, Has, Has]
  decide +kernel

theorem node_symbols : symbols.pool.node ⟨4⟩ = .range ⟨'a', 'z'⟩ ∧ symbols.pool.node ⟨5⟩ = .range ⟨'0', '9'⟩ ∧
    symbols.pool.node symbols.expr = .binary .union ⟨4⟩ ⟨5⟩ := by
  rw [symbols_eq, alphanumeric_eq]
  decide +kernel

/-- The pool has the two ranges and their chain. -/
structure HasSymbols (pool : Pool) : Prop where
  reachable : pool.Reachable
  letter : pool.Has ⟨4⟩
  digit : pool.Has ⟨5⟩
  chain : pool.Has symbols.expr
  knows : pool.Knows .union ⟨4⟩ ⟨5⟩ symbols.expr
  node_letter : pool.node ⟨4⟩ = .range ⟨'a', 'z'⟩
  node_digit : pool.node ⟨5⟩ = .range ⟨'0', '9'⟩
  node_chain : pool.node symbols.expr = .binary .union ⟨4⟩ ⟨5⟩

theorem hasSymbols : symbols.pool.HasSymbols := by
  obtain ⟨hstart, hletter, hdigit⟩ := reachable_alphanumeric
  have hfirst : alphanumeric.Later symbols.pool := Later.refl.binary .union hletter hdigit
  obtain ⟨hchain, hknows⟩ := hstart.knows_binary .union hletter hdigit .refl
  obtain ⟨hnode, hnode', hnode''⟩ := node_symbols
  exact ⟨hfirst.reachable hstart, hfirst.has hstart.sound hletter, hfirst.has hstart.sound hdigit, hchain, hknows, hnode,
    hnode', hnode''⟩

namespace HasSymbols

theorem mono (h : pool.HasSymbols) (hlater : pool.Later later) : later.HasSymbols := by
  have hext := (hlater.remembers h.reachable.sound).toExtends
  exact ⟨hlater.reachable h.reachable, hext.has h.letter, hext.has h.digit, hext.has h.chain,
    h.knows.mono h.reachable h.letter h.digit hlater, (hext.node_eq _ h.letter).trans h.node_letter,
    (hext.node_eq _ h.digit).trans h.node_digit, (hext.node_eq _ h.chain).trans h.node_chain⟩

theorem epsilon (h : pool.HasSymbols) : pool.Has .epsilon := h.reachable.sound.has_epsilon

theorem elements_eq (h : pool.HasSymbols) : pool.elements .union ⟨4⟩ = [⟨4⟩] ∧ pool.elements .union ⟨5⟩ = [⟨5⟩] ∧
    pool.elements .union .epsilon = [.epsilon] ∧ pool.elements .union symbols.expr = [⟨4⟩, ⟨5⟩] := by
  have hletter : pool.elements .union ⟨4⟩ = [⟨4⟩] := elements_of_element (by rw [h.node_letter]; rfl)
  have hdigit : pool.elements .union ⟨5⟩ = [⟨5⟩] := elements_of_element (by rw [h.node_digit]; rfl)
  refine ⟨hletter, hdigit, elements_of_element (by rw [h.reachable.sound.leaves.2.1]; rfl), ?_⟩
  rw [elements_of_chain h.node_chain, hletter, hdigit]
  rfl

/-- Neither range contains the other one, and the empty word is no range. -/
theorem apart (h : pool.HasSymbols) : pool.Apart .union [⟨4⟩, ⟨5⟩, .epsilon] := by
  have hcases : ∀ z ∈ [(⟨4⟩ : Expr), ⟨5⟩, .epsilon], ∀ i, pool.node z = .range i →
      z = ⟨4⟩ ∧ i = ⟨'a', 'z'⟩ ∨ z = ⟨5⟩ ∧ i = ⟨'0', '9'⟩ := by
    simp [h.node_letter, h.node_digit, h.reachable.sound.leaves.2.1, eq_comm]
  rintro x hx y hy ⟨i, j, hi, hj, hcontains⟩
  have hwithin := hcontains rfl
  rcases hcases x hx i hi with ⟨rfl, rfl⟩ | ⟨rfl, rfl⟩ <;> rcases hcases y hy j hj with ⟨rfl, rfl⟩ | ⟨rfl, rfl⟩
  · rfl
  · exact absurd hwithin (by decide)
  · exact absurd hwithin (by decide)
  · rfl

end HasSymbols

/-- The chain of a letter and a digit has one union with the empty word, in either order. It is the one of the letter
with the union of the other two, and the chain absorbs the digit. -/
theorem chain_laws_of_symbols :
    let back := symbols.pool.binary .union symbols.expr .epsilon
    let front := back.pool.binary .union .epsilon symbols.expr
    let rest := front.pool.binary .union ⟨5⟩ .epsilon
    let spread := rest.pool.binary .union ⟨4⟩ rest.expr
    symbols.pool.Reachable ∧ front.expr = back.expr ∧ spread.expr = back.expr ∧
      (spread.pool.binary .union symbols.expr ⟨5⟩).expr = symbols.expr := by
  intro back front rest spread
  have hop : BinaryOp.union ≠ .concat := by decide
  -- Five calls, one after the other.
  have h := hasSymbols
  have hback : symbols.pool.Later back.pool := Later.refl.binary .union h.chain h.epsilon
  have h₁ := h.mono hback
  have hfront : back.pool.Later front.pool := Later.refl.binary .union h₁.epsilon h₁.chain
  have h₂ := h₁.mono hfront
  have hrest : front.pool.Later rest.pool := Later.refl.binary .union h₂.digit h₂.epsilon
  have h₃ := h₂.mono hrest
  have htail : rest.pool.Has rest.expr := (h₂.reachable.knows_binary .union h₂.digit h₂.epsilon .refl).1
  have hspread : rest.pool.Later spread.pool := Later.refl.binary .union h₃.letter htail
  have h₄ := h₃.mono hspread
  have hlast : spread.pool.Later (spread.pool.binary .union symbols.expr ⟨5⟩).pool :=
    Later.refl.binary .union h₄.chain h₄.digit
  have h₅ := h₄.mono hlast
  -- The last pool knows the answers to all of them.
  have hspread' := (h₃.reachable.knows_binary .union h₃.letter htail hlast).2
  have hrest' := (h₂.reachable.knows_binary .union h₂.digit h₂.epsilon (hspread.trans hlast)).2
  have hfront' := (h₁.reachable.knows_binary .union h₁.epsilon h₁.chain (hrest.trans (hspread.trans hlast))).2
  have hback' := (h.reachable.knows_binary .union h.chain h.epsilon
    (hfront.trans (hrest.trans (hspread.trans hlast)))).2
  have hlast' := (h₄.reachable.knows_binary .union h₄.chain h₄.digit .refl).2
  obtain ⟨_, _, hcomm, hassoc, habsorb⟩ := chain_laws h₅.reachable hop
  obtain ⟨hletter, hdigit, hepsilon, hchain⟩ := h₅.elements_eq
  refine ⟨h.reachable, ?_, ?_, ?_⟩
  · refine hcomm _ _ _ _ h₅.epsilon h₅.chain (h₅.apart.subset fun z hz => ?_) hfront' hback'
    simpa [hepsilon, hchain, or_comm, or_assoc, or_left_comm] using hz
  · refine (hassoc _ _ _ _ _ _ _ h₅.letter h₅.digit h₅.epsilon ?_ h₅.knows hback' hrest' hspread').symm
    rw [hletter, hdigit, hepsilon]
    exact h₅.apart
  · refine habsorb _ _ _ h₅.chain (h₅.apart.subset fun z hz => ?_) ?_ (Or.inl hlast')
    · rw [hchain] at hz
      exact List.mem_append_left [.epsilon] hz
    · rw [hchain]
      simp

/-! ## Ranges in another order -/

/-- One lower case letter, under the handle 4. -/
def letter : Pool := (new.store (.range ⟨'a', 'z'⟩)).pool

/-- Any number of them, under the handle 5. -/
def letters : Pool := (letter.store (.unary .star ⟨4⟩)).pool

/-- A letter from `c` to `d`, under the handle 6. -/
def narrow : Pool := (letters.store (.range ⟨'c', 'd'⟩)).pool

/-- The chain of the last two, under the handle 7. -/
def nested : Pool := (narrow.store (.binary .union ⟨5⟩ ⟨6⟩)).pool

/-- The letter joins the chain in front, under the handle 8. -/
def nestedUnion : Pool := (nested.store (.binary .union ⟨4⟩ ⟨7⟩)).pool

/-- The range in the chain was found to be absorbed by the letter. -/
def absorbed : Pool := (nestedUnion.record (.binary .union ⟨6⟩ ⟨4⟩) ⟨4⟩).pool

theorem reachable_nested : nested.Reachable := by
  have hletter : letter.Reachable := by
    have h := reachable_lowercase
    rwa [lowercase_eq] at h
  have hletters : letters.Reachable := by
    have hhas : letter.Has ⟨4⟩ := by rw [Has]; decide +kernel
    have hn : letter.node ⟨4⟩ = .range ⟨'a', 'z'⟩ := by decide +kernel
    have hopen : letter.answer? (.unary .star ⟨4⟩) = none := by simp [letter, answer?_store_of_ne, answer?_new]
    have h : (letter.star ⟨4⟩).pool.Reachable := hletter.unary .star hhas
    rwa [star_of_open hopen hn (by decide) (by decide)] at h
  have hnarrow : narrow.Reachable := by
    have hopen : letters.answer? (.range ⟨'c', 'd'⟩) = none := by
      simp [letters, letter, answer?_store_of_ne, answer?_new]
    have h := hletters.range 'c' 'd'
    rwa [range_of_open hopen (by decide)] at h
  have hhas : narrow.Has ⟨5⟩ ∧ narrow.Has ⟨6⟩ := by rw [Has, Has]; decide +kernel
  have hrule : narrow.rule .union ⟨5⟩ ⟨6⟩ = .keep := by decide +kernel
  have hopen : narrow.answer? (.binary .union ⟨5⟩ ⟨6⟩) = none := by
    simp [narrow, letters, letter, answer?_store_of_ne, answer?_new]
  have h := hnarrow.binary .union hhas.1 hhas.2
  rwa [binary_of_open hopen, hrule] at h

theorem open_nested {e f : Expr} (h : Node.binary .union ⟨5⟩ ⟨6⟩ ≠ .binary .union e f) :
    nested.answer? (.binary .union e f) = none := by
  rw [nested, answer?_store_of_ne h]
  simp [narrow, letters, letter, answer?_store_of_ne, answer?_new]

theorem open_nestedUnion {e f : Expr} (h : Node.binary .union ⟨5⟩ ⟨6⟩ ≠ .binary .union e f)
    (h' : Node.binary .union ⟨4⟩ ⟨7⟩ ≠ .binary .union e f) : nestedUnion.answer? (.binary .union e f) = none := by
  rw [nestedUnion, answer?_store_of_ne h', open_nested h]

/-- The letter stands in front of what is left of the chain, under the handle 9. -/
def joined : Pool :=
  (((absorbed.store (.binary .union ⟨4⟩ ⟨5⟩)).pool.record (.binary .union ⟨5⟩ ⟨4⟩) ⟨9⟩).pool.record
    (.binary .union ⟨7⟩ ⟨4⟩) ⟨9⟩).pool

/-- The chain is taken apart, and the range in it is absorbed by the letter. -/
theorem union_nestedUnion : nestedUnion.binary .union ⟨7⟩ ⟨4⟩ = ⟨⟨9⟩, joined⟩ := by
  have hregroup : nestedUnion.rule .union ⟨7⟩ ⟨4⟩ = .regroup ⟨5⟩ ⟨6⟩ ⟨4⟩ := by decide +kernel
  have hdone : nestedUnion.rule .union ⟨6⟩ ⟨4⟩ = .done ⟨4⟩ := by decide +kernel
  have hswap : absorbed.rule .union ⟨5⟩ ⟨4⟩ = .swap := by decide +kernel
  have hkeep : absorbed.rule .union ⟨4⟩ ⟨5⟩ = .keep := by decide +kernel
  have hopen : absorbed.answer? (.binary .union ⟨5⟩ ⟨4⟩) = none ∧ absorbed.answer? (.binary .union ⟨4⟩ ⟨5⟩) = none := by
    rw [absorbed, answer?_record, answer?_record, if_neg (by decide), if_neg (by decide)]
    exact ⟨open_nestedUnion (by decide) (by decide), open_nestedUnion (by decide) (by decide)⟩
  have hinner : nestedUnion.binary .union ⟨6⟩ ⟨4⟩ = ⟨⟨4⟩, absorbed⟩ := by
    rw [binary_of_open (open_nestedUnion (by decide) (by decide)), hdone]
    rfl
  have houter : absorbed.binary .union ⟨5⟩ ⟨4⟩ =
      (absorbed.store (.binary .union ⟨4⟩ ⟨5⟩)).pool.record (.binary .union ⟨5⟩ ⟨4⟩) ⟨9⟩ := by
    rw [binary_of_open hopen.1, hswap]
    simp only [binary_of_open hopen.2, hkeep]
    rfl
  rw [binary_of_open (open_nestedUnion (by decide) (by decide)), hregroup]
  simp only [hinner, houter]
  rfl

theorem union_nested_letter : (nestedUnion.binary .union ⟨7⟩ ⟨4⟩).expr = ⟨9⟩ := congrArg Built.expr union_nestedUnion

/-- The union of a letter with the chain, and that of the chain with the letter, have different handles. -/
theorem union_of_nested_ranges : nested.Reachable ∧ nested.Has ⟨4⟩ ∧ nested.Has ⟨7⟩ ∧
    (nested.binary .union ⟨4⟩ ⟨7⟩).expr ≠ ((nested.binary .union ⟨4⟩ ⟨7⟩).pool.binary .union ⟨7⟩ ⟨4⟩).expr := by
  have hhas : nested.Has ⟨4⟩ ∧ nested.Has ⟨7⟩ := by rw [Has, Has]; decide +kernel
  have hrule : nested.rule .union ⟨4⟩ ⟨7⟩ = .keep := by decide +kernel
  have hfirst : nested.binary .union ⟨4⟩ ⟨7⟩ = ⟨⟨8⟩, nestedUnion⟩ := by
    rw [binary_of_open (open_nested (by decide)), hrule]
    rfl
  refine ⟨reachable_nested, hhas.1, hhas.2, ?_⟩
  rw [hfirst, union_nested_letter]
  decide

end Pool

end RegexAlgebra
