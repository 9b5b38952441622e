import RegexAlgebra.Anchor.Encounter
import RegexAlgebra.Proofs.Partitions
import RegexAlgebra.Proofs.Replay

/-! # Operations fail at the anchors that they meet

An anchor in an expression is no error in itself: nullability, the derivative and the character classes fail just if
they come to it, and they do not look at every part. Which parts they look at depends on the expression only, so the
derivatives by all symbols fail or none does.
-/

namespace RegexAlgebra

open Pool

namespace Pool

variable {pool later : Pool} {e o l r s : Expr} {n : Node} {visitor : Visitor}

/-! ## Parts that are looked at -/

theorem inTurn_subset (pool : Pool) (l r : Expr) : pool.inTurn l r ⊆ [l, r] := by
  unfold inTurn
  split <;> simp

theorem visited_subset (pool : Pool) (visitor : Visitor) (n : Node) : pool.visited visitor n ⊆ n.operands := by
  cases n with
  | binary op l r =>
      have hturn := pool.inTurn_subset l r
      cases op with
      | union => exact List.Subset.refl _
      | concat => exact hturn
      | intersect =>
          rw [visited]
          split
          · exact hturn
          · exact List.Subset.refl _
  | unary op s =>
      cases op with
      | negate => exact List.Subset.refl _
      | star =>
          rw [visited]
          split
          · exact List.nil_subset _
          · exact List.Subset.refl _
  | _ => exact List.nil_subset _

/-- Nullability looks at the least. -/
theorem visited_nullability_subset (pool : Pool) (visitor : Visitor) (n : Node) :
    pool.visited .nullability n ⊆ pool.visited visitor n := by
  by_cases hvisitor : visitor = .nullability
  · rw [hvisitor]
    exact List.Subset.refl _
  · cases n with
    | binary op l r =>
        cases op with
        | intersect =>
            simp only [visited, if_neg hvisitor]
            exact pool.inTurn_subset l r
        | _ => exact List.Subset.refl _
    | unary op s =>
        cases op with
        | star => exact List.nil_subset _
        | negate => exact List.Subset.refl _
    | _ => exact List.Subset.refl _

/-- The classes and the derivative look at the same. -/
theorem visited_classes (pool : Pool) (n : Node) : pool.visited .classes n = pool.visited .derivative n := by
  cases n with
  | binary op l r => cases op <;> rfl
  | unary op s => cases op <;> rfl
  | _ => rfl

theorem Extends.visited_eq (hext : Extends pool later) (hops : ∀ o ∈ n.operands, pool.Has o) :
    later.visited visitor n = pool.visited visitor n := by
  cases n with
  | binary op l r =>
      have hturn : later.inTurn l r = pool.inTurn l r := by
        rw [inTurn, inTurn, hext.isNullable_eq (Node.forall_operands_binary.1 hops).1]
      cases op <;> simp only [visited, hturn]
  | unary op s => cases op <;> rfl
  | _ => rfl

/-! ## Anchors that are met -/

theorem meets_iff :
    pool.Meets visitor e ↔
      (pool.node e).isAnchor = true ∨ ∃ o ∈ pool.visited visitor (pool.node e), pool.Meets visitor o := by
  constructor
  · intro h
    cases h with
    | anchor hanchor => exact Or.inl hanchor
    | operand ho hmeets => exact Or.inr ⟨_, ho, hmeets⟩
  · intro h
    rcases h with hanchor | ⟨o, ho, hmeets⟩
    · exact .anchor hanchor
    · exact .operand ho hmeets

theorem meets_of_node (hn : pool.node e = n) :
    pool.Meets visitor e ↔ n.isAnchor = true ∨ ∃ o ∈ pool.visited visitor n, pool.Meets visitor o := by
  rw [meets_iff, hn]

theorem meets_inTurn_iff :
    (∃ o ∈ pool.inTurn l r, pool.Meets visitor o) ↔
      pool.Meets visitor l ∨ pool.isNullable l = .ok true ∧ pool.Meets visitor r := by
  unfold inTurn
  split
  · rename_i hnullable
    simp [hnullable]
  · rename_i hnullable
    rw [or_iff_left fun hright => hnullable hright.1]
    simp

theorem meets_of_both (hn : pool.node e = .binary .union l r ∨
    pool.node e = .binary .intersect l r ∧ visitor ≠ .nullability) :
    pool.Meets visitor e ↔ pool.Meets visitor l ∨ pool.Meets visitor r := by
  rcases hn with hn | ⟨hn, hvisitor⟩ <;> rw [meets_of_node hn]
  · simp [Node.isAnchor, visited]
  · simp [Node.isAnchor, visited, hvisitor]

theorem meets_of_inTurn (hn : pool.node e = .binary .concat l r ∨
    pool.node e = .binary .intersect l r ∧ visitor = .nullability) :
    pool.Meets visitor e ↔ pool.Meets visitor l ∨ pool.isNullable l = .ok true ∧ pool.Meets visitor r := by
  rcases hn with hn | ⟨hn, hvisitor⟩ <;> rw [meets_of_node hn, ← meets_inTurn_iff]
  · simp [Node.isAnchor, visited]
  · simp [Node.isAnchor, visited, hvisitor]

theorem meets_of_unary {op : UnaryOp} (hn : pool.node e = .unary op s)
    (hvisitor : visitor ≠ .nullability ∨ op = .negate) : pool.Meets visitor e ↔ pool.Meets visitor s := by
  rw [meets_of_node hn]
  cases op with
  | negate => simp [Node.isAnchor, visited]
  | star => simp [Node.isAnchor, visited, hvisitor.resolve_right (by simp)]

theorem not_meets_of_leaf (hanchor : (pool.node e).isAnchor = false) (hnil : (pool.node e).operands = []) :
    ¬ pool.Meets visitor e := by
  rw [meets_iff, hanchor]
  rintro (hfalse | ⟨o, ho, _⟩)
  · cases hfalse
  · have hops := pool.visited_subset visitor _ ho
    rw [hnil] at hops
    cases hops

theorem Meets.not_anchorFree (h : pool.Meets visitor e) : ¬ pool.AnchorFree e := by
  induction h with
  | anchor hanchor =>
      intro hfree
      rw [(anchorFree_iff.1 hfree).1] at hanchor
      cases hanchor
  | operand ho _ ih => exact fun hfree => ih (hfree.operand (pool.visited_subset visitor _ ho))

theorem Meets.of_nullability (h : pool.Meets .nullability e) (visitor : Visitor) : pool.Meets visitor e := by
  induction h with
  | anchor hanchor => exact .anchor hanchor
  | operand ho _ ih => exact .operand (pool.visited_nullability_subset visitor _ ho) ih

theorem meets_classes_iff : pool.Meets .classes e ↔ pool.Meets .derivative e := by
  constructor
  · intro h
    induction h with
    | anchor hanchor => exact .anchor hanchor
    | operand ho _ ih => exact .operand (pool.visited_classes _ ▸ ho) ih
  · intro h
    induction h with
    | anchor hanchor => exact .anchor hanchor
    | operand ho _ ih => exact .operand (pool.visited_classes _ ▸ ho) ih

theorem Extends.meets_iff (hext : Extends pool later) (he : pool.Has e) :
    later.Meets visitor e ↔ pool.Meets visitor e := by
  induction e using operandInduction pool with
  | step e ih =>
      rw [Pool.meets_iff, Pool.meets_iff, hext.node_eq e he, hext.visited_eq fun o ho => he.operand ho]
      refine or_congr_right (exists_congr fun o => and_congr_right fun ho => ?_)
      have hop := pool.visited_subset visitor _ ho
      exact ih o hop (he.operand hop)

end Pool

/-! ## Questions -/

/-- The error says that the classes met an anchor, themselves or when they asked for nullability. -/
def Error.MetByClasses (error : Error) : Prop :=
  error = .anchorReached .nullability ∨ error = .anchorReached .classes

/-- The question is answered, or it has one of the errors; it has one just if what is stated holds. -/
def FailsIff {α : Type} (meets : Prop) (fails : Error → Prop) : Except Error α → Prop
  | .ok _ => ¬ meets
  | .error error => meets ∧ fails error

namespace FailsIff

variable {α β : Type} {P Q R : Prop} {fails fails' : Error → Prop} {x : Except Error α} {next : α → Except Error β}

theorem congr (h : FailsIff P fails x) (hiff : Q ↔ P) : FailsIff Q fails x := by
  rwa [propext hiff]

theorem mono_fails (h : FailsIff P fails x) (hfails : ∀ error, fails error → fails' error) : FailsIff P fails' x := by
  cases x with
  | ok a => exact h
  | error error => exact ⟨h.1, hfails error h.2⟩

theorem map (h : FailsIff P fails x) (f : α → β) : FailsIff P fails (do return f (← x)) := by
  cases x with
  | ok a => exact h
  | error error => exact h

theorem bind (h : FailsIff P fails x) (hnext : ∀ a, x = .ok a → FailsIff Q fails (next a)) :
    FailsIff (P ∨ Q) fails (x >>= next) := by
  cases x with
  | error error => exact ⟨Or.inl h.1, h.2⟩
  | ok a => exact (hnext a rfl).congr (or_iff_right h)

/-- A question whose failures are among those of the next one adds nothing to them. -/
theorem bind_of_imp (h : FailsIff P fails x) (hPQ : P → Q) (hnext : ∀ a, x = .ok a → FailsIff Q fails (next a)) :
    FailsIff Q fails (x >>= next) :=
  (h.bind hnext).congr (or_iff_right_of_imp hPQ).symm

theorem cases (h : FailsIff P fails x) : P ∧ (∃ error, fails error ∧ x = .error error) ∨ ¬ P ∧ ∃ a, x = .ok a := by
  cases x with
  | ok a => exact Or.inr ⟨h, a, rfl⟩
  | error error => exact Or.inl ⟨h.1, error, h.2, rfl⟩

end FailsIff

namespace Pool

variable {pool : Pool} {e l r : Expr}

theorem isNullable_failsIff (pool : Pool) (e : Expr) :
    FailsIff (pool.Meets .nullability e) (· = .anchorReached .nullability) (pool.isNullable e) := by
  induction e using operandInduction pool with
  | step e ih =>
      rw [isNullable_eq]
      cases hn : pool.node e with
      | empty => exact not_meets_of_leaf (by rw [hn]; rfl) (by rw [hn]; rfl)
      | epsilon => exact not_meets_of_leaf (by rw [hn]; rfl) (by rw [hn]; rfl)
      | range interval => exact not_meets_of_leaf (by rw [hn]; rfl) (by rw [hn]; rfl)
      | startAnchor => exact ⟨.anchor (by rw [hn]; rfl), rfl⟩
      | endAnchor => exact ⟨.anchor (by rw [hn]; rfl), rfl⟩
      | binary op l r =>
          rw [hn] at ih
          obtain ⟨ihl, ihr⟩ := Node.forall_operands_binary.1 ih
          have hturn : FailsIff (pool.Meets .nullability l ∨ pool.isNullable l = .ok true ∧ pool.Meets .nullability r)
              (· = .anchorReached .nullability)
              (do if ← pool.isNullable l then pool.isNullable r else return false) := by
            refine ihl.bind fun a ha => ?_
            cases a with
            | false => exact fun hright => by simp [ha] at hright
            | true => exact ihr.congr (and_iff_right ha)
          cases op with
          | union =>
              exact (ihl.bind fun a _ => ihr.map (a || ·)).congr (meets_of_both (Or.inl hn))
          | intersect => exact hturn.congr (meets_of_inTurn (Or.inr ⟨hn, rfl⟩))
          | concat => exact hturn.congr (meets_of_inTurn (Or.inl hn))
      | unary op s =>
          rw [hn] at ih
          have ihs := Node.forall_operands_unary.1 ih
          cases op with
          | star =>
              show ¬ pool.Meets .nullability e
              rw [meets_of_node hn]
              simp [Node.isAnchor, visited]
          | negate => exact (ihs.map (!·)).congr (meets_of_unary hn (Or.inr rfl))

theorem classes_failsIff (pool : Pool) (e : Expr) :
    FailsIff (pool.Meets .classes e) Error.MetByClasses (pool.classes e) := by
  induction e using operandInduction pool with
  | step e ih =>
      rw [classes_eq]
      cases hn : pool.node e with
      | empty => exact not_meets_of_leaf (by rw [hn]; rfl) (by rw [hn]; rfl)
      | epsilon => exact not_meets_of_leaf (by rw [hn]; rfl) (by rw [hn]; rfl)
      | range interval => exact not_meets_of_leaf (by rw [hn]; rfl) (by rw [hn]; rfl)
      | startAnchor => exact ⟨.anchor (by rw [hn]; rfl), Or.inr rfl⟩
      | endAnchor => exact ⟨.anchor (by rw [hn]; rfl), Or.inr rfl⟩
      | binary op l r =>
          rw [hn] at ih
          obtain ⟨ihl, ihr⟩ := Node.forall_operands_binary.1 ih
          have hboth : FailsIff (pool.Meets .classes l ∨ pool.Meets .classes r) _ (pool.bothClasses l r) :=
            ihl.bind fun ls _ => ihr.map (Partition.refine ls)
          cases op with
          | union => exact hboth.congr (meets_of_both (Or.inl hn))
          | intersect => exact hboth.congr (meets_of_both (Or.inr ⟨hn, by simp⟩))
          | concat =>
              have hmeets : pool.Meets .classes e ↔ _ := meets_of_inTurn (Or.inl hn)
              refine ((pool.isNullable_failsIff l).mono_fails fun _ => Or.inl).bind_of_imp
                (fun hl => hmeets.2 (Or.inl (hl.of_nullability .classes))) fun nullable hnullable => ?_
              cases nullable with
              | true => exact hboth.congr (by rw [hmeets, and_iff_right hnullable])
              | false => exact ihl.congr (by rw [hmeets, hnullable]; simp)
      | unary op s =>
          rw [hn] at ih
          exact (Node.forall_operands_unary.1 ih).congr (meets_of_unary hn (Or.inl (by simp)))

end Pool

/-! ## Derivatives -/

/-- The session gives a handle, or fails because a derivative met an anchor; it fails just if what is stated holds. -/
abbrev Session.FailsIff (session : Session Expr) (pool : Pool) (meets : Prop) : Prop :=
  Session.Ends session pool (fun d later => later.Has d ∧ ¬ meets) fun error =>
    meets ∧ error = .anchorReached .derivative

namespace Session.FailsIff

variable {pool : Pool} {session : Session Expr} {next : Expr → Session Expr} {P Q : Prop} {a b : Expr}

theorem congr (h : session.FailsIff pool P) (hiff : Q ↔ P) : session.FailsIff pool Q := by
  rwa [propext hiff]

theorem pure (ha : pool.Has a) : Session.FailsIff (Pure.pure a) pool False := Ends.pure ⟨ha, not_false⟩

theorem bind (h : session.FailsIff pool P)
    (hnext : ∀ d middle, pool.Grows middle → middle.Has d → ¬ P → (next d).FailsIff middle Q) :
    (session >>= next).FailsIff pool (P ∨ Q) := by
  refine Ends.bind (h.mono_fails fun error hfails => ⟨Or.inl hfails.1, hfails.2⟩) fun d middle hgrows hd => ?_
  have hrest := hnext d middle hgrows hd.1 hd.2
  refine (hrest.mono fun last later _ hlast => ⟨hlast.1, ?_⟩).mono_fails fun error hfails => ⟨Or.inr hfails.1, hfails.2⟩
  exact not_or.2 ⟨hd.2, hlast.2⟩

theorem binary (h : pool.Sound) (op : BinaryOp) (ha : pool.Has a) (hb : pool.Has b) :
    (build (·.binary op a b)).FailsIff pool False :=
  (ends_binary h op ha hb).mono fun _ _ _ hsettles => ⟨hsettles.answers.has, not_false⟩

theorem unary (h : pool.Sound) (op : UnaryOp) (ha : pool.Has a) : (build (·.unary op a)).FailsIff pool False :=
  (ends_unary h op ha).mono fun _ _ _ hsettles => ⟨hsettles.answers.has, not_false⟩

end Session.FailsIff

namespace Expr

variable {pool start : Pool} {e l r s : Expr} {c : Char}

/-- The derivative of `o` fails just if it meets an anchor, in any pool that the first one has grown into. -/
private def DerivativeFailsIff (pool : Pool) (c : Char) (o : Expr) : Prop :=
  ∀ start, pool.Grows start → (o.derivative c).FailsIff start (pool.Meets .derivative o)

private theorem failsIff_both {op : BinaryOp} (h : pool.Sound) (hop : op ≠ .concat) (hn : pool.node e = .binary op l r)
    (hgrows : pool.Grows start) (hl : DerivativeFailsIff pool c l) (hr : DerivativeFailsIff pool c r) :
    (e.derivativeOf c (.binary op l r)).FailsIff start (pool.Meets .derivative e) := by
  have hboth : Session.FailsIff (do
      let a ← l.derivative c
      let b ← r.derivative c
      Session.build (·.binary op a b)) start (pool.Meets .derivative l ∨ pool.Meets .derivative r ∨ False) := by
    refine (hl start hgrows).bind fun a middle hmiddle ha _ => ?_
    refine (hr middle (hgrows.trans hmiddle)).bind fun b later hlater hb _ => ?_
    have hsound := (hgrows.trans hmiddle).sound h
    exact .binary (hlater.sound hsound) op (hlater.has hsound ha) hb
  rw [or_false] at hboth
  cases op with
  | union => exact hboth.congr (meets_of_both (Or.inl hn))
  | intersect => exact hboth.congr (meets_of_both (Or.inr ⟨hn, by simp⟩))
  | concat => exact absurd rfl hop

/-- Once there is a derivative of the left operand, to ask for its nullability does not fail. -/
private theorem failsIff_concat (h : pool.Sound) (he : pool.Has e) (hn : pool.node e = .binary .concat l r)
    (hgrows : pool.Grows start) (hl : DerivativeFailsIff pool c l) (hr : DerivativeFailsIff pool c r) :
    (e.derivativeOf c (.binary .concat l r)).FailsIff start (pool.Meets .derivative e) := by
  obtain ⟨hhasl, hhasr⟩ := has_of_binary hn he
  refine Session.FailsIff.congr (P := _ ∨ False ∨ _) ((hl start hgrows).bind fun a middle hmiddle ha hmeets => ?_)
    (by rw [false_or]; exact meets_of_inTurn (Or.inl hn))
  have hgrows' := hgrows.trans hmiddle
  have hsound := hgrows'.sound h
  refine (Session.FailsIff.binary hsound .concat ha (hgrows'.has h hhasr)).bind fun first later hlater hfirst _ => ?_
  have hsound' := hlater.sound hsound
  have hnullable : later.isNullable l = pool.isNullable l :=
    ((hgrows'.trans hlater).extends_pool h).isNullable_eq hhasl
  rcases (pool.isNullable_failsIff l).cases with ⟨hnull, _⟩ | ⟨_, nullable, hanswer⟩
  · exact absurd (hnull.of_nullability .derivative) hmeets
  · have hask : Session.ask (·.isNullable l) later = .ok nullable later := Session.ask_of_ok (hnullable.trans hanswer)
    refine Ends.congr (bind_of_ok hask) ?_
    cases nullable with
    | false => exact (Session.FailsIff.pure hfirst).congr (by rw [hanswer]; simp)
    | true =>
        have hright := (hr later (hgrows'.trans hlater)).bind fun b last hlast hb _ =>
          Session.FailsIff.binary (hlast.sound hsound') .union (hlast.has hsound' hfirst) hb
        exact hright.congr (by rw [and_iff_right hanswer, or_false])

/-- A derivative, by whatever symbol, fails just if it meets an anchor. -/
theorem derivative_failsIff (h : pool.Sound) (he : pool.Has e) (c : Char) (hgrows : pool.Grows start) :
    (e.derivative c).FailsIff start (pool.Meets .derivative e) := by
  induction e using operandInduction pool generalizing start with
  | step e ih =>
      have hsound := hgrows.sound h
      have hsub : ∀ o ∈ (pool.node e).operands, DerivativeFailsIff pool c o :=
        fun o ho _ hgrows => ih o ho (he.operand ho) hgrows
      refine Ends.congr (derivative_run e c start) ?_
      rw [(hgrows.extends_pool h).node_eq e he]
      have hleaf : ∀ {d}, start.Has d → (pool.node e).isAnchor = false → (pool.node e).operands = [] →
          Session.FailsIff (pure d) start (pool.Meets .derivative e) := fun hd hanchor hnil =>
        (Session.FailsIff.pure hd).congr (iff_false_intro (not_meets_of_leaf hanchor hnil))
      cases hn : pool.node e with
      | empty => exact hleaf hsound.has_empty (by rw [hn]; rfl) (by rw [hn]; rfl)
      | epsilon => exact hleaf hsound.has_empty (by rw [hn]; rfl) (by rw [hn]; rfl)
      | range interval => exact hleaf (hsound.has_ofBool _) (by rw [hn]; rfl) (by rw [hn]; rfl)
      | startAnchor => exact Ends.throw ⟨.anchor (by rw [hn]; rfl), rfl⟩
      | endAnchor => exact Ends.throw ⟨.anchor (by rw [hn]; rfl), rfl⟩
      | binary op l r =>
          rw [hn] at hsub
          obtain ⟨hl, hr⟩ := Node.forall_operands_binary.1 hsub
          by_cases hop : op = .concat
          · subst hop
            exact failsIff_concat h he hn hgrows hl hr
          · exact failsIff_both h hop hn hgrows hl hr
      | unary op s =>
          rw [hn] at hsub
          have hs := Node.forall_operands_unary.1 hsub start hgrows
          have hmeets : pool.Meets .derivative e ↔ pool.Meets .derivative s ∨ False := by
            rw [or_false]
            exact meets_of_unary hn (Or.inl (by simp))
          cases op with
          | star =>
              refine (hs.bind fun a middle hmiddle ha _ => ?_).congr hmeets
              exact .binary (hmiddle.sound hsound) .concat ha ((hgrows.trans hmiddle).has h he)
          | negate =>
              refine (hs.bind fun a middle hmiddle ha _ => ?_).congr hmeets
              exact .unary (hmiddle.sound hsound) .negate ha

end Expr

end RegexAlgebra
