import RegexAlgebra.Expr.Nullability
import RegexAlgebra.Proofs.Partitions
import RegexAlgebra.Proofs.Plans

/-! # Questions store no nodes

Nullability that is put together by the constructors only ever asks for the union or the intersection of nothing and the
empty word. Those are answered by a rule, so the nodes of the pool stay as they are, and the answer is the one that is
read off them. The same holds of the character classes, which ask for nullability on their way. Errors are no exception.
-/

namespace RegexAlgebra

open Pool

namespace Pool

variable {pool middle later : Pool}

/-- All that was added to the pool is answers to requests. -/
structure OnlyRecords (pool later : Pool) : Prop where
  grows : pool.Grows later
  nodes_eq : later.nodes = pool.nodes

namespace OnlyRecords

theorem refl (pool : Pool) : pool.OnlyRecords pool := ⟨.refl, rfl⟩

theorem trans (h : pool.OnlyRecords middle) (h' : middle.OnlyRecords later) : pool.OnlyRecords later :=
  ⟨h.grows.trans h'.grows, h'.nodes_eq.trans h.nodes_eq⟩

theorem node_eq (h : pool.OnlyRecords later) (e : Expr) : later.node e = pool.node e := by
  rw [node, node, h.nodes_eq]

end OnlyRecords

/-! ## The two truth values -/

theorem rule_union_ofBool (pool : Pool) (a b : Bool) :
    pool.rule .union (.ofBool a) (.ofBool b) = .done (.ofBool (a || b)) := by
  cases a <;> cases b <;> rfl

theorem rule_intersect_ofBool (pool : Pool) (a b : Bool) :
    pool.rule .intersect (.ofBool a) (.ofBool b) = .done (.ofBool (a && b)) := by
  cases a <;> cases b <;> rfl

end Pool

namespace Session

variable {α β γ : Type} {pool : Pool} {session session' : Session α} {answer : Except Error α} {e f a : Expr}
  {op : BinaryOp}

theorem outcome_congr {pool' : Pool} (hrun : session pool = session' pool') :
    session.outcome pool = session'.outcome pool' := by
  rw [outcome, outcome, EStateM.run, EStateM.run, hrun]

/-- The session ends with the answer, a value or an error, and stores no node on its way to it. -/
def Reads (session : Session α) (answer : Except Error α) (pool : Pool) : Prop :=
  ∃ later, session.outcome pool = (answer, later) ∧ pool.OnlyRecords later

namespace Reads

theorem pure (a : α) (pool : Pool) : Reads (Pure.pure a) (.ok a) pool := ⟨pool, rfl, .refl pool⟩

theorem throw (error : Error) (pool : Pool) : Reads (throw error : Session α) (.error error) pool :=
  ⟨pool, rfl, .refl pool⟩

theorem congr (hrun : session pool = session' pool) (h : session'.Reads answer pool) : session.Reads answer pool := by
  obtain ⟨later, houtcome, hrecords⟩ := h
  exact ⟨later, (outcome_congr hrun).trans houtcome, hrecords⟩

/-- What is done with the value of a session that reads its answer can be told by the answer alone. -/
theorem bind_map {g : γ → α} {answer : Except Error γ} {next : α → Session β} {rest : γ → Except Error β}
    (h : session.Reads (g <$> answer) pool)
    (hnext : ∀ x later, pool.OnlyRecords later → (next (g x)).Reads (rest x) later) :
    (session >>= next).Reads (answer >>= rest) pool := by
  obtain ⟨middle, houtcome, hrecords⟩ := h
  cases hrun : session pool with
  | ok a middle' =>
      rw [outcome_of_ok hrun] at houtcome
      cases answer with
      | error error => cases houtcome
      | ok x =>
          cases houtcome
          obtain ⟨later, hrest, hrecords'⟩ := hnext x middle hrecords
          exact ⟨later, (outcome_congr (bind_of_ok hrun)).trans hrest, hrecords.trans hrecords'⟩
  | error error middle' =>
      rw [outcome_of_error hrun] at houtcome
      cases answer with
      | error error' =>
          cases houtcome
          exact ⟨middle, outcome_of_error (bind_of_error hrun), hrecords⟩
      | ok x => cases houtcome

theorem bind {next : α → Session β} {rest : α → Except Error β} (h : session.Reads answer pool)
    (hnext : ∀ a later, pool.OnlyRecords later → (next a).Reads (rest a) later) :
    (session >>= next).Reads (answer >>= rest) pool := by
  rw [← id_map answer] at h
  exact h.bind_map hnext

theorem binary_of_done (h : pool.FollowsPlans) (he : pool.Has e) (hf : pool.Has f)
    (hrule : pool.rule op e f = .done a) : Reads (build (·.binary op e f)) (.ok a) pool := by
  obtain ⟨hexpr, hnodes⟩ := h.binary_of_done hrule
  refine ⟨(pool.binary op e f).pool, ?_, .binary op .refl he hf, hnodes⟩
  rw [← hexpr]
  rfl

end Reads

end Session

namespace Expr

variable {pool : Pool} {e l r : Expr} {op : BinaryOp}

/-! ## Nullability -/

/-- One layer of nullability: what it does with the node of an expression. -/
def nullabilityOf : Node → Session Expr
  | .empty => return .empty
  | .range _ => return .empty
  | .epsilon => return .epsilon
  | .startAnchor => throw (.anchorReached .nullability)
  | .endAnchor => throw (.anchorReached .nullability)
  | .binary .union left right => do
    let a ← left.nullability
    let b ← right.nullability
    Session.build (·.binary .union a b)
  | .binary _ left right => do
    let a ← left.nullability
    if a = .empty then
      return .empty
    else
      let b ← right.nullability
      Session.build (·.binary .intersect a b)
  | .unary .star _ => return .epsilon
  | .unary .negate sub => do
    let a ← sub.nullability
    return if a = .empty then .epsilon else .empty

theorem nullability_run (e : Expr) (pool : Pool) : e.nullability pool = nullabilityOf (pool.node e) pool := by
  have hget : (get : Session Pool) pool = .ok pool pool := rfl
  rw [nullability, bind_of_ok hget]
  refine congrFun ?_ pool
  split
  case h_7 op l r hop hn =>
      rw [hn]
      cases op with
      | union => exact (hop rfl).elim
      | _ => rfl
  all_goals
    rename_i hn
    rw [hn]
    rfl

/-- A rule combines two truth values. -/
theorem reads_ofBool (h : pool.Sound) (hfollows : pool.FollowsPlans) {later : Pool} (hlater : pool.OnlyRecords later)
    {a b c : Bool} (hrule : later.rule op (ofBool a) (ofBool b) = .done (ofBool c)) :
    (Session.build (·.binary op (ofBool a) (ofBool b))).Reads (.ok (ofBool c)) later := by
  have hsound := hlater.grows.sound h
  have hfollows' := hlater.grows.followsPlans h hfollows
  exact .binary_of_done hfollows' (hsound.has_ofBool a) (hsound.has_ofBool b) hrule

/-- Put together by the constructors, nullability is what is read off the nodes. -/
theorem nullability_reads (h : pool.Sound) (hfollows : pool.FollowsPlans) (e : Expr) {later : Pool}
    (hlater : pool.OnlyRecords later) : e.nullability.Reads (pool.nullable e) later := by
  induction e using operandInduction pool generalizing later with
  | step e ih =>
      refine .congr (nullability_run e later) ?_
      rw [hlater.node_eq, nullable, isNullable_eq]
      cases hn : pool.node e with
      | startAnchor => exact .throw _ later
      | endAnchor => exact .throw _ later
      | binary op l r =>
          rw [hn] at ih
          obtain ⟨ihl, ihr⟩ := Node.forall_operands_binary.1 ih
          have hboth : Session.Reads (do
              let a ← l.nullability
              if a = .empty then
                return .empty
              else
                let b ← r.nullability
                Session.build (·.binary .intersect a b))
              (ofBool <$> (do if ← pool.isNullable l then pool.isNullable r else return false)) later := by
            rw [map_bind]
            refine .bind_map (ihl hlater) fun a middle hmiddle => ?_
            have hmiddle' := hlater.trans hmiddle
            cases a with
            | false => exact .pure _ middle
            | true =>
                simp only [if_true, if_neg (show ofBool true ≠ .empty by decide)]
                rw [map_eq_pure_bind]
                refine .bind_map (ihr hmiddle') fun b last hlast => ?_
                exact reads_ofBool h hfollows (hmiddle'.trans hlast) (last.rule_intersect_ofBool true b)
          cases op with
          | union =>
              show Session.Reads _ (ofBool <$> (do
                let a ← pool.isNullable l
                let b ← pool.isNullable r
                return a || b)) later
              rw [map_bind]
              refine .bind_map (ihl hlater) fun a middle hmiddle => ?_
              have hmiddle' := hlater.trans hmiddle
              rw [map_bind]
              refine .bind_map (ihr hmiddle') fun b last hlast => ?_
              exact reads_ofBool h hfollows (hmiddle'.trans hlast) (last.rule_union_ofBool a b)
          | intersect => exact hboth
          | concat => exact hboth
      | unary op s =>
          rw [hn] at ih
          cases op with
          | star => exact .pure _ later
          | negate =>
              show Session.Reads _ (ofBool <$> (do let a ← pool.isNullable s; return !a)) later
              rw [map_bind]
              refine .bind_map (ih s (by simp [Node.operands]) hlater) fun a middle _ => ?_
              cases a <;> exact .pure _ middle
      | _ => exact .pure _ later

theorem isNullable_reads (h : pool.Sound) (hfollows : pool.FollowsPlans) (e : Expr) {later : Pool}
    (hlater : pool.OnlyRecords later) : e.isNullable.Reads (pool.isNullable e) later := by
  rw [← bind_pure (pool.isNullable e)]
  refine .bind_map (nullability_reads h hfollows e hlater) fun b middle _ => ?_
  cases b <;> exact .pure _ middle

/-! ## Character classes -/

def bothCharacterClasses (l r : Expr) : Session (List Interval) := do
  let ls ← l.characterClasses
  let rs ← r.characterClasses
  return Partition.refine ls rs

/-- One layer of the character classes: what is done with the node of an expression. -/
def characterClassesOf : Node → Session (List Interval)
  | .empty => return Partition.trivial
  | .epsilon => return Partition.trivial
  | .range interval => return interval.cells
  | .startAnchor => throw (.anchorReached .classes)
  | .endAnchor => throw (.anchorReached .classes)
  | .unary _ sub => sub.characterClasses
  | .binary .concat left right => do
    if ← left.isNullable then bothCharacterClasses left right else left.characterClasses
  | .binary _ left right => bothCharacterClasses left right

theorem characterClasses_run (e : Expr) (pool : Pool) :
    e.characterClasses pool = characterClassesOf (pool.node e) pool := by
  have hget : (get : Session Pool) pool = .ok pool pool := rfl
  rw [characterClasses, bind_of_ok hget]
  refine congrFun ?_ pool
  split
  case h_8 op l r hop hn =>
      rw [hn]
      cases op with
      | concat => exact (hop rfl).elim
      | _ => rfl
  all_goals
    rename_i hn
    rw [hn]
    rfl

/-- The character classes are what is read off the nodes. -/
theorem characterClasses_reads (h : pool.Sound) (hfollows : pool.FollowsPlans) (e : Expr) {later : Pool}
    (hlater : pool.OnlyRecords later) : e.characterClasses.Reads (pool.classes e) later := by
  induction e using operandInduction pool generalizing later with
  | step e ih =>
      refine .congr (characterClasses_run e later) ?_
      rw [hlater.node_eq, classes_eq]
      cases hn : pool.node e with
      | startAnchor => exact .throw _ later
      | endAnchor => exact .throw _ later
      | binary op l r =>
          rw [hn] at ih
          obtain ⟨ihl, ihr⟩ := Node.forall_operands_binary.1 ih
          have hboth : ∀ {later}, pool.OnlyRecords later →
              (bothCharacterClasses l r).Reads (pool.bothClasses l r) later := by
            intro later hlater
            refine .bind (ihl hlater) fun ls middle hmiddle => ?_
            refine .bind (ihr (hlater.trans hmiddle)) fun rs last _ => ?_
            exact .pure _ last
          cases op with
          | concat =>
              refine .bind (isNullable_reads h hfollows l hlater) fun nullable middle hmiddle => ?_
              cases nullable with
              | true => exact hboth (hlater.trans hmiddle)
              | false => exact ihl (hlater.trans hmiddle)
          | union => exact hboth hlater
          | intersect => exact hboth hlater
      | unary op s =>
          rw [hn] at ih
          exact ih s (by simp [Node.operands]) hlater
      | _ => exact .pure _ later

end Expr

end RegexAlgebra
