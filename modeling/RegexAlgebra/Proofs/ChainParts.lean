import RegexAlgebra.Proofs.ChainLaws
import RegexAlgebra.Proofs.Intervals

/-! # What becomes of the parts of a chain

The parts of an operand go through several rules before they stand in the chain of the answer. Each rule that puts a part
elsewhere keeps the parts as a set, and only ranges are ever lost: a union drops one for another that contains it, and an
intersection has one in place of two. So what a whole run does to the parts is what one rule does to them (`Condenses`),
which neither the order of the parts nor repeated ones enter into.
-/

namespace RegexAlgebra

namespace Pool

variable {pool later : Pool} {op : BinaryOp} {e f a l r x y z rest : Expr} {xs ys zs : List Expr} {i j : Interval}

/-! ## Parts -/

/-- The elements of a chain; none if it is without effect. -/
def parts (pool : Pool) (op : BinaryOp) (e : Expr) : List Expr :=
  if pool.isNeutral op e then [] else pool.elements op e

theorem parts_of_neutral (h : pool.isNeutral op e = true) : pool.parts op e = [] := if_pos h

theorem parts_of_proper (hop : op ≠ .concat) (h : pool.IsProper e) : pool.parts op e = pool.elements op e :=
  if_neg (by simp [((isProper_iff hop).1 h).2])

theorem InNormalForm.parts_of_chain (h : pool.InNormalForm) (hop : op ≠ .concat) (he : pool.Has e)
    (hn : pool.node e = .binary op l r) : pool.parts op e = pool.parts op l ++ pool.parts op r := by
  obtain ⟨hl, hr, hself⟩ := h.isProper_of_chain hop he hn
  rw [parts_of_proper hop hself, parts_of_proper hop hl, parts_of_proper hop hr, elements_of_chain hn]

theorem InNormalForm.isProper_of_range (h : pool.InNormalForm) (hn : pool.node e = .range i) : pool.IsProper e := by
  refine ⟨?_, by simp [isAll, hn, Node.asUnary?]⟩
  rintro rfl
  rw [h.leaves.1] at hn
  cases hn

theorem InNormalForm.isAbsorbing_of_range (h : pool.InNormalForm) (hop : op ≠ .concat) (hn : pool.node e = .range i) :
    pool.isAbsorbing op e = false := ((isProper_iff hop).1 (h.isProper_of_range hn)).1

theorem InNormalForm.parts_of_range (h : pool.InNormalForm) (hop : op ≠ .concat) (hn : pool.node e = .range i) :
    pool.parts op e = [e] := by
  rw [parts_of_proper hop (h.isProper_of_range hn), elements_of_element (by rw [hn]; rfl)]

/-- What answers the request for a range is nothing or that range. -/
theorem InNormalForm.eq_empty_or_range (h : pool.InNormalForm) (he : pool.Has e)
    (hformed : pool.Formed e (.range i)) : e = .empty ∨ pool.node e = .range i := by
  have htree : pool.tree e = if i.isEmpty then .empty else .range i := hformed
  split at htree
  · exact Or.inl (by_contra fun hne => h.tree_ne_empty he hne htree)
  · rw [tree_eq] at htree
    cases hn : pool.node e <;> simp [hn, nodeTree] at htree
    rw [htree]
    exact Or.inr rfl

theorem has_parts (he : pool.Has e) : ∀ x ∈ pool.parts op e, pool.Has x := by
  intro x hx
  unfold parts at hx
  split at hx
  · cases hx
  · exact InNormalForm.has_elements he x hx

theorem mem_intervals : i ∈ pool.intervals xs ↔ ∃ x ∈ xs, pool.node x = .range i := by
  simp [intervals, Node.asRange?_eq_some_iff]

theorem intervals_append : pool.intervals (xs ++ ys) = pool.intervals xs ++ pool.intervals ys :=
  List.filterMap_append

theorem others_append : pool.others (xs ++ ys) = pool.others xs ++ pool.others ys := List.filter_append ..

theorem mem_others : x ∈ pool.others xs ↔ x ∈ xs ∧ ∀ i, pool.node x ≠ .range i := by
  simp [others, Option.eq_none_iff_forall_ne_some, Node.asRange?_eq_some_iff]

namespace Extends

variable (hext : Extends pool later)
include hext

theorem parts_eq (he : pool.Has e) : later.parts op e = pool.parts op e := by
  rw [parts, parts, hext.isNeutral_eq he, hext.elements_eq he]

theorem intervals_eq (hxs : ∀ x ∈ xs, pool.Has x) : later.intervals xs = pool.intervals xs :=
  List.filterMap_congr fun x hx => by rw [hext.node_eq x (hxs x hx)]

theorem others_eq (hxs : ∀ x ∈ xs, pool.Has x) : later.others xs = pool.others xs :=
  List.filter_congr fun x hx => by rw [hext.node_eq x (hxs x hx)]

end Extends

/-! ## Ranges in place of ranges -/

/-- The second expressions are the first up to ranges. Under a union some of the first are left, one that contains each
range among them. Under an intersection the ranges have the same symbols in common. -/
structure Condenses (pool : Pool) (op : BinaryOp) (xs ys : List Expr) : Prop where
  others : ∀ x, x ∈ pool.others ys ↔ x ∈ pool.others xs
  subset : op = .union → ys ⊆ xs
  covered : op = .union → ∀ i ∈ pool.intervals xs, ∃ j ∈ pool.intervals ys, j.containsInterval i = true
  common : op = .intersect → Interval.common? (pool.intervals ys) = Interval.common? (pool.intervals xs)

namespace Condenses

/-- Neither the order of the expressions counts nor how often one of them is there. -/
theorem of_mem (h : ∀ x, x ∈ ys ↔ x ∈ xs) : pool.Condenses op xs ys where
  others := fun x => by rw [mem_others, mem_others, h]
  subset := fun _ x => (h x).1
  covered := fun _ i hi => by
    obtain ⟨x, hx, hn⟩ := mem_intervals.1 hi
    exact ⟨i, mem_intervals.2 ⟨x, (h x).2 hx, hn⟩, Interval.containsInterval_iff.2 fun _ => id⟩
  common := fun _ => Interval.common?_congr fun i => by simp only [mem_intervals, h]

theorem trans (h : pool.Condenses op xs ys) (h' : pool.Condenses op ys zs) : pool.Condenses op xs zs where
  others := fun x => (h'.others x).trans (h.others x)
  subset := fun hop => List.Subset.trans (h'.subset hop) (h.subset hop)
  covered := fun hop i hi => by
    obtain ⟨j, hj, hij⟩ := h.covered hop i hi
    obtain ⟨k, hk, hjk⟩ := h'.covered hop j hj
    rw [Interval.containsInterval_iff] at hij hjk
    exact ⟨k, hk, Interval.containsInterval_iff.2 fun c hc => hjk c (hij c hc)⟩
  common := fun hop => (h'.common hop).trans (h.common hop)

theorem append_left (h : pool.Condenses op xs ys) (zs : List Expr) : pool.Condenses op (zs ++ xs) (zs ++ ys) where
  others := fun x => by
    have hothers := h.others x
    rw [mem_others, mem_others] at hothers ⊢
    simp only [List.mem_append, or_and_right, hothers]
  subset := fun hop => List.append_subset.2
    ⟨List.subset_append_left zs xs, List.Subset.trans (h.subset hop) (List.subset_append_right zs xs)⟩
  covered := fun hop i hi => by
    rw [intervals_append, List.mem_append] at hi
    rw [intervals_append]
    rcases hi with hi | hi
    · exact ⟨i, List.mem_append_left _ hi, Interval.containsInterval_iff.2 fun _ => id⟩
    · obtain ⟨j, hj, hij⟩ := h.covered hop i hi
      exact ⟨j, List.mem_append_right _ hj, hij⟩
  common := fun hop => by
    rw [intervals_append, intervals_append, Interval.common?_append, Interval.common?_append, h.common hop]

/-- A range that is contained in another is dropped by a union. -/
theorem of_contains (hi : pool.node x = .range i) (hj : pool.node y = .range j) (h : i.containsInterval j = true) :
    pool.Condenses .union [x, y] [x] where
  others := fun z => by simp [Pool.others, hi, hj, Node.asRange?]
  subset := fun _ => by simp
  covered := fun _ k hk => by
    have hself : i.containsInterval i = true := Interval.containsInterval_iff.2 fun _ => id
    simp only [intervals, List.filterMap_cons, hi, hj, Node.asRange?, List.filterMap_nil, List.mem_cons, List.not_mem_nil,
      or_false] at hk ⊢
    rcases hk with rfl | rfl
    · exact ⟨k, rfl, hself⟩
    · exact ⟨i, rfl, h⟩
  common := nofun

/-- Two ranges have what the range of their intersection has. -/
theorem of_common (hi : pool.node x = .range i) (hj : pool.node y = .range j) (ha : pool.node a = .range (i ∩ j)) :
    pool.Condenses .intersect [x, y] [a] where
  others := fun z => by simp [Pool.others, hi, hj, ha, Node.asRange?]
  subset := nofun
  covered := nofun
  common := fun _ => by simp [intervals, hi, hj, ha, Node.asRange?, Interval.common?]

theorem exists_contains_of_missing (h : pool.Condenses .union xs ys) (hx : x ∈ xs) (hmissing : x ∉ ys) :
    ∃ i, pool.node x = .range i ∧ ∃ y ∈ ys, ∃ j, pool.node y = .range j ∧ j.containsInterval i = true := by
  by_cases hrange : ∃ i, pool.node x = .range i
  · obtain ⟨i, hi⟩ := hrange
    obtain ⟨j, hj, hij⟩ := h.covered rfl i (mem_intervals.2 ⟨x, hx, hi⟩)
    obtain ⟨y, hy, hn⟩ := mem_intervals.1 hj
    exact ⟨i, hi, y, hy, j, hn, hij⟩
  · have hother := (h.others x).2 (mem_others.2 ⟨hx, not_exists.1 hrange⟩)
    exact absurd (mem_others.1 hother).1 hmissing

theorem of_extends (h : pool.Condenses op xs ys) (hext : Extends pool later) (hxs : ∀ x ∈ xs, pool.Has x)
    (hys : ∀ y ∈ ys, pool.Has y) : later.Condenses op xs ys := by
  have hintervals := hext.intervals_eq hxs
  have hintervals' := hext.intervals_eq hys
  refine ⟨fun x => ?_, h.subset, fun hop => ?_, fun hop => ?_⟩
  · rw [hext.others_eq hxs, hext.others_eq hys]
    exact h.others x
  · rw [hintervals, hintervals']
    exact h.covered hop
  · rw [hintervals, hintervals']
    exact h.common hop

end Condenses

/-! ## Answers that are put together from the parts -/

/-- The answer absorbs the others if an operand does, and under a union only then. Else its parts are those of the
operands up to ranges. -/
structure Assembles (pool : Pool) (op : BinaryOp) (e f a : Expr) : Prop where
  absorbed : pool.isAbsorbing op a = false → pool.isAbsorbing op e = false ∧ pool.isAbsorbing op f = false
  absorbs : op = .union → pool.isAbsorbing op e = false → pool.isAbsorbing op f = false → pool.isAbsorbing op a = false
  condenses : pool.isAbsorbing op a = false → pool.Condenses op (pool.parts op e ++ pool.parts op f) (pool.parts op a)

namespace Assembles

theorem symm (h : pool.Assembles op f e a) : pool.Assembles op e f a where
  absorbed := fun ha => (h.absorbed ha).symm
  absorbs := fun hop he hf => h.absorbs hop hf he
  condenses := fun ha => (Condenses.of_mem fun x => by simp only [List.mem_append, or_comm]).trans (h.condenses ha)

/-- The right operand adds nothing. -/
theorem left (hf : pool.isAbsorbing op e = false → pool.isAbsorbing op f = false)
    (h : pool.isAbsorbing op e = false → pool.Condenses op (pool.parts op e ++ pool.parts op f) (pool.parts op e)) :
    pool.Assembles op e f e where
  absorbed := fun he => ⟨he, hf he⟩
  absorbs := fun _ he _ => he
  condenses := h

theorem of_neutral (hform : pool.InNormalForm) (h : pool.isNeutral op f = true) : pool.Assembles op e f e :=
  .left (fun _ => hform.isAbsorbing_of_neutral h) fun _ => by
    rw [parts_of_neutral h, List.append_nil]
    exact .of_mem fun _ => Iff.rfl

theorem of_absorbing (h : pool.isAbsorbing op e = true) : pool.Assembles op e f e := by
  have hnot : pool.isAbsorbing op e ≠ false := by simp [h]
  exact .left (fun he => absurd he hnot) fun he => absurd he hnot

/-- The right operand has no parts that the left one does not have. -/
theorem of_subset (hf : pool.isAbsorbing op e = false → pool.isAbsorbing op f = false)
    (h : pool.parts op f ⊆ pool.parts op e) : pool.Assembles op e f e :=
  .left hf fun _ => .of_mem fun x => by
    rw [List.mem_append]
    exact ⟨Or.inl, fun hx => hx.elim id fun hx => h hx⟩

/-- The right operand is a range within the left one. -/
theorem of_contains (hform : pool.InNormalForm) (hi : pool.node e = .range i) (hj : pool.node f = .range j)
    (h : i.containsInterval j = true) : pool.Assembles .union e f e := by
  have hop : BinaryOp.union ≠ .concat := by decide
  refine .left (fun _ => hform.isAbsorbing_of_range hop hj) fun _ => ?_
  rw [hform.parts_of_range hop hi, hform.parts_of_range hop hj]
  exact .of_contains hi hj h

/-- An intersection of two ranges is a range, or nothing. -/
theorem of_common (hform : pool.InNormalForm) (hi : pool.node e = .range i) (hj : pool.node f = .range j)
    (ha : a = .empty ∨ pool.node a = .range (i ∩ j)) : pool.Assembles .intersect e f a := by
  have hop : BinaryOp.intersect ≠ .concat := by decide
  have hoperands := And.intro (hform.isAbsorbing_of_range hop hi) (hform.isAbsorbing_of_range hop hj)
  refine ⟨fun _ => hoperands, nofun, fun habsorbing => ?_⟩
  rcases ha with rfl | ha
  · cases habsorbing
  · rw [hform.parts_of_range hop hi, hform.parts_of_range hop hj, hform.parts_of_range hop ha]
    exact .of_common hi hj ha

theorem regroup (hrest : pool.Assembles op y z rest) (h : pool.Assembles op x rest a)
    (habsorbing : pool.isAbsorbing op x = false ∧ pool.isAbsorbing op y = false ∧ pool.isAbsorbing op z = false ↔
      pool.isAbsorbing op e = false ∧ pool.isAbsorbing op f = false)
    (hparts : ∀ w, w ∈ pool.parts op x ++ (pool.parts op y ++ pool.parts op z) ↔
      w ∈ pool.parts op e ++ pool.parts op f) : pool.Assembles op e f a where
  absorbed := fun ha => by
    obtain ⟨hx, hr⟩ := h.absorbed ha
    exact habsorbing.1 ⟨hx, hrest.absorbed hr⟩
  absorbs := fun hop he hf => by
    obtain ⟨hx, hy, hz⟩ := habsorbing.2 ⟨he, hf⟩
    exact h.absorbs hop hx (hrest.absorbs hop hy hz)
  condenses := fun ha =>
    have hinner := hrest.condenses (h.absorbed ha).2
    ((Condenses.of_mem hparts).trans (hinner.append_left _)).trans (h.condenses ha)

/-- A stored chain. -/
theorem of_node (hform : pool.InNormalForm) (hop : op ≠ .concat) (ha : pool.Has a)
    (hn : pool.node a = .binary op e f) : pool.Assembles op e f a := by
  obtain ⟨he, hf, hself⟩ := hform.isAbsorbing_of_chain hop ha hn
  refine ⟨fun _ => ⟨he, hf⟩, fun _ _ _ => hself, fun _ => ?_⟩
  rw [hform.parts_of_chain hop ha hn]
  exact .of_mem fun _ => Iff.rfl

theorem of_extends (h : pool.Assembles op e f a) (hext : Extends pool later) (he : pool.Has e) (hf : pool.Has f)
    (ha : pool.Has a) : later.Assembles op e f a := by
  refine ⟨?_, ?_, ?_⟩ <;> rw [hext.isAbsorbing_eq ha]
  · rw [hext.isAbsorbing_eq he, hext.isAbsorbing_eq hf]
    exact h.absorbed
  · rw [hext.isAbsorbing_eq he, hext.isAbsorbing_eq hf]
    exact h.absorbs
  · intro habsorbing
    rw [hext.parts_eq he, hext.parts_eq hf, hext.parts_eq ha]
    refine (h.condenses habsorbing).of_extends hext ?_ (has_parts ha)
    exact List.forall_mem_append.2 ⟨has_parts he, has_parts hf⟩

end Assembles

/-! ## The rules assemble -/

/-- The relation that the rules of chains make hold. -/
abbrev AssemblesChains (pool : Pool) (op : BinaryOp) (e f a : Expr) : Prop :=
  op ≠ .concat → pool.Has a → pool.Assembles op e f a

theorem chainRule_assembles (hform : pool.InNormalForm) (he : pool.Has e) (hf : pool.Has f) (hne : e ≠ f) :
    (pool.chainRule op e f).Makes AssemblesChains pool op e f := by
  rcases chainRule_cases op hne with ⟨head, tail, hn, heq⟩ | ⟨tail, hn, heq⟩ | ⟨head, tail, hn, heq⟩ | heq | ⟨_, heq⟩
    <;> rw [heq]
  · intro later rest answer hext hcanonical hhas hrest hanswer hop ha
    have hn' := (hext.node_eq e he).trans hn
    obtain ⟨hhead, htail, hself⟩ := hcanonical.isAbsorbing_of_chain hop (hext.has he) hn'
    refine .regroup (hrest hop hhas) (hanswer hop ha) (by simp [hhead, htail, hself]) fun w => ?_
    rw [hcanonical.parts_of_chain hop (hext.has he) hn', List.append_assoc]
  · intro hop _
    obtain ⟨hhead, _, _⟩ := hform.isAbsorbing_of_chain hop hf hn
    refine (Assembles.of_subset (fun _ => hhead) ?_).symm
    rw [hform.parts_of_chain hop hf hn]
    exact List.subset_append_left _ _
  · intro later rest answer hext hcanonical hhas hrest hanswer hop ha
    have hn' := (hext.node_eq f hf).trans hn
    obtain ⟨hhead, htail, hself⟩ := hcanonical.isAbsorbing_of_chain hop (hext.has hf) hn'
    refine .regroup (hrest hop hhas) (hanswer hop ha) (by simp [hhead, htail, hself]) fun w => ?_
    rw [hcanonical.parts_of_chain hop (hext.has hf) hn']
    simp only [List.mem_append, or_left_comm]
  · exact fun later answer _ h hop ha => (h hop ha).symm
  · exact fun later answer _ hcanonical hhas hn hop _ => .of_node hcanonical.toInNormalForm hop hhas hn

theorem rule_assembles (hform : pool.InNormalForm) (hop : op ≠ .concat) (he : pool.Has e) (hf : pool.Has f) :
    (pool.rule op e f).Makes AssemblesChains pool op e f := by
  have hcase := pool.rule_case hop e f
  generalize pool.rule op e f = reduction at hcase
  cases hcase with
  | same heq => exact fun _ _ => .of_subset (fun he => heq ▸ he) (heq ▸ List.Subset.refl _)
  | neutralLeft h => exact fun _ _ => (Assembles.of_neutral hform h).symm
  | neutralRight h => exact fun _ _ => .of_neutral hform h
  | absorbingLeft h => exact fun _ _ => .of_absorbing h
  | absorbingRight h => exact fun _ _ => (Assembles.of_absorbing h).symm
  | rightWithinLeft hunion _ hi hj h =>
      subst hunion
      exact fun _ _ => .of_contains hform hi hj h
  | leftWithinRight hunion _ hi hj h =>
      subst hunion
      exact fun _ _ => (Assembles.of_contains hform hj hi h).symm
  | common hintersect _ hi hj =>
      subst hintersect
      intro later answer hext hcanonical hformed _ ha
      refine .of_common hcanonical.toInNormalForm ((hext.node_eq e he).trans hi) ((hext.node_eq f hf).trans hj) ?_
      exact hcanonical.eq_empty_or_range ha hformed
  | chain hne => exact chainRule_assembles hform he hf hne

theorem assemblesChains_madeByRules : MadeByRules AssemblesChains where
  mono := fun hext he hf ha h hop _ => (h hop ha).of_extends hext he hf ha
  makes := fun {pool op e f} _ hcanonical he hf => by
    by_cases hop : op = .concat
    · exact Reduction.makes_of_forall (fun _ _ hchain => absurd hop hchain) pool _
    · exact rule_assembles hcanonical.toInNormalForm hop he hf

theorem Reachable.assembles (h : pool.Reachable) (op : BinaryOp) (hop : op ≠ .concat) (he : pool.Has e)
    (hf : pool.Has f) : (pool.binary op e f).pool.Assembles op e f (pool.binary op e f).expr := by
  have hsettles := binary_settles h.sound op he hf
  have hrecorded := (h.binary op he hf).recorded assemblesChains_madeByRules
  exact hrecorded _ _ _ _ hsettles.answer?_eq hop hsettles.answers.has

/-- On every pool with a history: all parts of a union are parts of an operand, and a part that is missing in it is a
range that is contained in a range among its parts, provided that neither operand is `not nothing`. And an intersection,
unless it is nothing, has just those parts that are no ranges that its operands have, and its ranges have that interval
in common that theirs have, and so the same symbols. -/
theorem chains_keep_parts (h : pool.Reachable) (he : pool.Has e) (hf : pool.Has f) :
    (∀ built, pool.union e f = built → pool.isAll e = false → pool.isAll f = false →
      (∀ x ∈ built.pool.parts .union built.expr, x ∈ pool.parts .union e ∨ x ∈ pool.parts .union f) ∧
      ∀ x, x ∈ pool.parts .union e ∨ x ∈ pool.parts .union f → x ∉ built.pool.parts .union built.expr →
        ∃ i, pool.node x = .range i ∧ ∃ y ∈ built.pool.parts .union built.expr, ∃ j,
          built.pool.node y = .range j ∧ j.containsInterval i = true) ∧
    ∀ built, pool.intersect e f = built → built.expr ≠ .empty →
      (∀ x, x ∈ built.pool.others (built.pool.parts .intersect built.expr) ↔
        x ∈ pool.others (pool.parts .intersect e) ∨ x ∈ pool.others (pool.parts .intersect f)) ∧
      Interval.common? (built.pool.intervals (built.pool.parts .intersect built.expr)) =
        Interval.common? (pool.intervals (pool.parts .intersect e) ++ pool.intervals (pool.parts .intersect f)) ∧
      ∀ c, (∀ i ∈ built.pool.intervals (built.pool.parts .intersect built.expr), c ∈ i) ↔
        ∀ i ∈ pool.intervals (pool.parts .intersect e) ++ pool.intervals (pool.parts .intersect f), c ∈ i := by
  constructor
  · rintro _ rfl hall hall'
    have hext := pool.extends_binary .union e f
    have hassembles := h.assembles .union (by decide) he hf
    have hcondenses := hassembles.condenses (hassembles.absorbs rfl ((hext.isAbsorbing_eq he).trans hall)
      ((hext.isAbsorbing_eq hf).trans hall'))
    rw [hext.parts_eq he, hext.parts_eq hf] at hcondenses
    refine ⟨fun x hx => List.mem_append.1 (hcondenses.subset rfl hx), fun x hx hmissing => ?_⟩
    obtain ⟨i, hi, hkept⟩ := hcondenses.exists_contains_of_missing (List.mem_append.2 hx) hmissing
    have hhas : pool.Has x := hx.elim (has_parts he x) (has_parts hf x)
    exact ⟨i, (hext.node_eq x hhas).symm.trans hi, hkept⟩
  · rintro _ rfl hne
    have hext := pool.extends_binary .intersect e f
    have hassembles := h.assembles .intersect (by decide) he hf
    have hcondenses := hassembles.condenses (beq_eq_false_iff_ne.2 hne)
    rw [hext.parts_eq he, hext.parts_eq hf] at hcondenses
    have hcommon := hcondenses.common rfl
    rw [intervals_append, hext.intervals_eq (has_parts he), hext.intervals_eq (has_parts hf)] at hcommon
    refine ⟨fun x => ?_, hcommon, fun _ => Interval.forall_mem_iff_of_common? hcommon⟩
    rw [← hext.others_eq (has_parts he), ← hext.others_eq (has_parts hf), ← List.mem_append, ← others_append]
    exact hcondenses.others x

theorem reachable_nestedUnion : nestedUnion.Reachable := by
  have hhas : nested.Has ⟨4⟩ ∧ nested.Has ⟨7⟩ := by rw [Has, Has]; decide +kernel
  have hrule : nested.rule .union ⟨4⟩ ⟨7⟩ = .keep := by decide +kernel
  have h := reachable_nested.binary .union hhas.1 hhas.2
  rwa [binary_of_open (open_nested (by decide)), hrule] at h

/-- The chain loses a range to the letter that it is joined with. The letter and that range have the latter in common. -/
theorem parts_of_nestedUnion :
    nestedUnion.Reachable ∧ ⟨6⟩ ∈ nestedUnion.parts .union ⟨7⟩ ∧ ⟨6⟩ ∉ joined.parts .union ⟨9⟩ ∧
      (∃ y ∈ joined.parts .union ⟨9⟩, ∃ j, joined.node y = .range j ∧ j.containsInterval ⟨'c', 'd'⟩ = true) ∧
      ∃ built, nestedUnion.intersect ⟨4⟩ ⟨6⟩ = built ∧
        Interval.common? (built.pool.intervals (built.pool.parts .intersect built.expr)) = some ⟨'c', 'd'⟩ := by
  have hhas : nestedUnion.Has ⟨4⟩ ∧ nestedUnion.Has ⟨6⟩ ∧ nestedUnion.Has ⟨7⟩ := by rw [Has, Has, Has]; decide +kernel
  have hparts : ⟨6⟩ ∈ nestedUnion.parts .union ⟨7⟩ := by decide +kernel
  have hmissing : ⟨6⟩ ∉ joined.parts .union ⟨9⟩ := by decide +kernel
  have hunion := (chains_keep_parts reachable_nestedUnion hhas.2.2 hhas.1).1 _ union_nestedUnion (by decide +kernel)
    (by decide +kernel)
  obtain ⟨i, hi, hkept⟩ := hunion.2 ⟨6⟩ (Or.inl hparts) hmissing
  have hn : nestedUnion.node ⟨6⟩ = .range ⟨'c', 'd'⟩ := by decide +kernel
  cases hn.symm.trans hi
  -- The intersection asks for the range once more.
  have hanswer : nestedUnion.answer? (.range ⟨'c', 'd'⟩) = some ⟨6⟩ := by
    rw [nestedUnion, answer?_store_of_ne (by simp), nested, answer?_store_of_ne (by simp), narrow,
      answer?_store (by simp [Node.operands])]
    rfl
  have hopen : nestedUnion.answer? (.binary .intersect ⟨4⟩ ⟨6⟩) = none := by
    simp [nestedUnion, nested, narrow, letters, letter, answer?_store_of_ne, answer?_new]
  have hrule : nestedUnion.rule .intersect ⟨4⟩ ⟨6⟩ = .range ⟨'c', 'd'⟩ := by decide +kernel
  have hexpr : (nestedUnion.intersect ⟨4⟩ ⟨6⟩).expr = ⟨6⟩ := by
    rw [intersect, binary_of_open hopen, hrule]
    simp only [range, hanswer]
    rfl
  obtain ⟨_, hcommon, _⟩ := (chains_keep_parts reachable_nestedUnion hhas.1 hhas.2.1).2 _ rfl (by rw [hexpr]; decide)
  exact ⟨reachable_nestedUnion, hparts, hmissing, hkept, _, rfl, hcommon.trans (by decide +kernel)⟩

end Pool

end RegexAlgebra
