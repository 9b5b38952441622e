import RegexAlgebra.Pattern.Places
import RegexAlgebra.Proofs.Representation

/-! # Faults of patterns

The list of the faults of a pattern starts with the part at fault whose place comes first, and it is empty just if no
part is at fault. So a pattern without an expression is reported by its first fault. The pool that is reached then is
one like any other: what was stored on the way to the fault is there to stay.
-/

namespace RegexAlgebra

open Pool

namespace Pattern

variable {pattern part operand : Pattern} {place place' : Place} {error error' : Error} {i j : Nat}

/-- What holds of a pattern if it holds of its operands holds of every pattern. -/
@[elab_as_elim]
theorem partInduction {motive : Pattern → Prop}
    (step : ∀ pattern, (∀ operand ∈ pattern.operands, motive operand) → motive pattern) (pattern : Pattern) :
    motive pattern := by
  induction hsize : sizeOf pattern using Nat.strongRecOn generalizing pattern with
  | ind n ih =>
      refine step pattern fun operand hoperand => ih (sizeOf operand) ?_ operand rfl
      subst hsize
      cases pattern with
      | repetition min max greedy sub =>
          rw [List.mem_singleton.1 hoperand]
          simp
      | capture index name sub =>
          rw [List.mem_singleton.1 hoperand]
          simp
      | concat parts =>
          have hlt := List.sizeOf_lt_of_mem hoperand
          simp only [operands] at hlt
          simp
          omega
      | alternation branches =>
          have hlt := List.sizeOf_lt_of_mem hoperand
          simp only [operands] at hlt
          simp
          omega
      | _ => cases hoperand

/-! ## Places -/

@[simp] theorem part?_nil (pattern : Pattern) : pattern.part? [] = some pattern := by rw [part?]

theorem part?_cons_eq_some_iff :
    pattern.part? (i :: place) = some part ↔
      ∃ operand, pattern.operands[i]? = some operand ∧ operand.part? place = some part := by
  rw [part?, Option.bind_eq_some_iff]

theorem not_operandPrecedes_self : ¬ pattern.OperandPrecedes i i := by
  cases pattern <;> simp [OperandPrecedes]

theorem OperandPrecedes.asymm (h : pattern.OperandPrecedes i j) : ¬ pattern.OperandPrecedes j i := by
  cases pattern <;> simp only [OperandPrecedes] at h ⊢ <;> omega

theorem Precedes.asymm (h : pattern.Precedes place place') : ¬ pattern.Precedes place' place := by
  induction h with
  | inside => rintro ⟨⟩
  | apart place place' hij =>
      intro h
      cases h with
      | apart _ _ hji => exact hij.asymm hji
      | within => exact not_operandPrecedes_self hij
  | within hoperand _ ih =>
      intro h
      cases h with
      | apart _ _ hii => exact not_operandPrecedes_self hii
      | within hoperand' hinner =>
          rw [hoperand] at hoperand'
          cases hoperand'
          exact ih hinner

/-! ## Faults in order -/

/-- The operands of a pattern in the order in which they are turned into expressions. -/
def operandsInOrder : Pattern → List Pattern
  | .concat parts => parts.reverse
  | pattern => pattern.operands

/-- The faults of a pattern that do not stand in its operands. -/
def ownFaults : Pattern → List Error
  | .look assertion => assertion.faults
  | .repetition min max _ _ => boundFaults min max
  | _ => []

theorem mem_operandsInOrder : operand ∈ pattern.operandsInOrder ↔ operand ∈ pattern.operands := by
  cases pattern <;> simp [operandsInOrder, operands]

theorem branchFaults_eq (branches : List Pattern) : branchFaults branches = branches.flatMap faults := by
  induction branches with
  | nil => rw [branchFaults, List.flatMap_nil]
  | cons branch branches ih => rw [branchFaults, List.flatMap_cons, ih]

theorem partFaults_eq (parts : List Pattern) : partFaults parts = parts.reverse.flatMap faults := by
  induction parts with
  | nil => rw [partFaults, List.reverse_nil, List.flatMap_nil]
  | cons part parts ih => rw [partFaults, List.reverse_cons, List.flatMap_append, List.flatMap_singleton, ih]

/-- The faults in the operands come before those of the pattern itself. -/
theorem faults_eq (pattern : Pattern) :
    pattern.faults = pattern.operandsInOrder.flatMap faults ++ pattern.ownFaults := by
  cases pattern with
  | concat parts => simp [faults, operandsInOrder, ownFaults, partFaults_eq]
  | alternation branches => simp [faults, operandsInOrder, operands, ownFaults, branchFaults_eq]
  | _ => simp [faults, operandsInOrder, operands, ownFaults]

theorem Look.head?_faults_eq_some_iff {look : Look} :
    look.faults.head? = some error ↔ look ≠ .start ∧ look ≠ .finish ∧ error = .unsupportedLook look := by
  cases look <;> simp [Look.faults, eq_comm]

theorem head?_ownFaults_eq_some_iff : pattern.ownFaults.head? = some error ↔ pattern.IsFault error := by
  constructor
  · intro h
    cases pattern with
    | look assertion =>
        obtain ⟨hstart, hfinish, rfl⟩ := Look.head?_faults_eq_some_iff.1 h
        exact .look hstart hfinish
    | repetition min max greedy sub =>
        cases max with
        | none => cases h
        | some max =>
            simp only [ownFaults, boundFaults] at h
            split at h
            · rename_i hlt
              cases h
              exact .bounds greedy sub hlt
            · cases h
    | _ => cases h
  · intro h
    cases h with
    | look hstart hfinish => exact Look.head?_faults_eq_some_iff.2 ⟨hstart, hfinish, rfl⟩
    | bounds greedy sub hlt =>
        rw [ownFaults, boundFaults, if_pos hlt]
        rfl

theorem ownFaults_eq_nil_iff : pattern.ownFaults = [] ↔ ∀ error, ¬ pattern.IsFault error := by
  rw [← List.head?_eq_none_iff, Option.eq_none_iff_forall_ne_some]
  simp only [ne_eq, head?_ownFaults_eq_some_iff]

theorem faults_eq_nil_iff :
    pattern.faults = [] ↔ ∀ place part error, pattern.part? place = some part → ¬ part.IsFault error := by
  induction pattern using partInduction with
  | step pattern ih =>
      rw [faults_eq, List.append_eq_nil_iff, List.flatMap_eq_nil_iff, ownFaults_eq_nil_iff]
      constructor
      · rintro ⟨hoperands, hown⟩ place part error hpart
        cases place with
        | nil =>
            rw [part?_nil] at hpart
            cases hpart
            exact hown error
        | cons i place =>
            obtain ⟨operand, hoperand, hpart⟩ := part?_cons_eq_some_iff.1 hpart
            have hmem : operand ∈ pattern.operands := List.mem_of_getElem? hoperand
            exact (ih operand hmem).1 (hoperands operand (mem_operandsInOrder.2 hmem)) place part error hpart
      · intro h
        refine ⟨fun operand hoperand => ?_, fun error => h [] pattern error (part?_nil pattern)⟩
        have hmem := mem_operandsInOrder.1 hoperand
        obtain ⟨i, hi⟩ := List.mem_iff_getElem?.1 hmem
        exact (ih operand hmem).2 fun place part error hpart =>
          h (i :: place) part error (part?_cons_eq_some_iff.2 ⟨operand, hi, hpart⟩)

/-! ## The first fault -/

/-- An operand that is reached after some others has a number, and comes before all operands but those. -/
theorem exists_number_of_operandsInOrder {before after : List Pattern}
    (h : pattern.operandsInOrder = before ++ operand :: after) :
    ∃ i, pattern.operands[i]? = some operand ∧
      ∀ j other, pattern.operands[j]? = some other → j ≠ i → other ∈ before ∨ pattern.OperandPrecedes i j := by
  have hforward : ∀ operands : List Pattern, operands = before ++ operand :: after →
      operands[before.length]? = some operand ∧
        ∀ j other, operands[j]? = some other → j ≠ before.length → other ∈ before ∨ before.length < j := by
    rintro _ rfl
    refine ⟨by simp, fun j other hother hne => ?_⟩
    rcases Nat.lt_or_gt_of_ne hne with hlt | hgt
    · rw [List.getElem?_append_left hlt] at hother
      exact Or.inl (List.mem_of_getElem? hother)
    · exact Or.inr hgt
  cases pattern with
  | concat parts =>
      have hparts : parts = after.reverse ++ operand :: before.reverse := by
        rw [← List.reverse_reverse parts, show parts.reverse = _ from h]
        simp
      subst hparts
      refine ⟨after.reverse.length, by simp [operands], fun j other hother hne => ?_⟩
      rcases Nat.lt_or_gt_of_ne hne with hlt | hgt
      · exact Or.inr hlt
      · refine Or.inl ?_
        rw [operands, List.getElem?_append_right (Nat.le_of_lt hgt), List.getElem?_cons] at hother
        rw [if_neg (by omega)] at hother
        exact List.mem_reverse.1 (List.mem_of_getElem? hother)
  | _ => exact ⟨before.length, hforward _ h⟩

theorem firstFault_of_operand (hoperand : pattern.operands[i]? = some operand) (h : operand.FirstFault place error)
    (hothers : ∀ j other, pattern.operands[j]? = some other → j ≠ i →
      other.faults = [] ∨ pattern.OperandPrecedes i j) : pattern.FirstFault (i :: place) error where
  isFault := by
    obtain ⟨part, hpart, hfault⟩ := h.isFault
    exact ⟨part, part?_cons_eq_some_iff.2 ⟨operand, hoperand, hpart⟩, hfault⟩
  precedes := by
    intro place' part error' hpart hfault hne
    cases place' with
    | nil => exact .inside pattern i place
    | cons j place' =>
        obtain ⟨other, hother, hpart⟩ := part?_cons_eq_some_iff.1 hpart
        by_cases hj : j = i
        · subst hj
          rw [hoperand] at hother
          cases hother
          exact .within hoperand (h.precedes place' part error' hpart hfault fun heq => hne (heq ▸ rfl))
        · rcases hothers j other hother hj with hnil | hprecedes
          · exact absurd hfault (faults_eq_nil_iff.1 hnil place' part error' hpart)
          · exact .apart place place' hprecedes

theorem firstFault_of_self (hoperands : ∀ operand ∈ pattern.operands, operand.faults = [])
    (h : pattern.IsFault error) : pattern.FirstFault [] error where
  isFault := ⟨pattern, part?_nil pattern, h⟩
  precedes := by
    intro place' part error' hpart hfault hne
    cases place' with
    | nil => exact absurd rfl hne
    | cons j place' =>
        obtain ⟨other, hother, hpart⟩ := part?_cons_eq_some_iff.1 hpart
        have hnone := hoperands other (List.mem_of_getElem? hother)
        exact absurd hfault (faults_eq_nil_iff.1 hnone place' part error' hpart)

theorem exists_firstFault (h : pattern.faults.head? = some error) : ∃ place, pattern.FirstFault place error := by
  induction pattern using partInduction with
  | step pattern ih =>
      rw [faults_eq, List.head?_append, Option.or_eq_some_iff, List.head?_flatMap] at h
      rcases h with hfirst | ⟨hnone, hown⟩
      · obtain ⟨before, operand, after, hsplit, hhead, hbefore⟩ := List.findSome?_eq_some_iff.1 hfirst
        have hmem : operand ∈ pattern.operands := mem_operandsInOrder.1 (hsplit ▸ by simp)
        obtain ⟨place, hplace⟩ := ih operand hmem hhead
        obtain ⟨i, hi, hothers⟩ := exists_number_of_operandsInOrder hsplit
        refine ⟨i :: place, firstFault_of_operand hi hplace fun j other hother hj => ?_⟩
        exact (hothers j other hother hj).imp_left fun hin => List.head?_eq_none_iff.1 (hbefore other hin)
      · refine ⟨[], firstFault_of_self (fun operand hoperand => ?_) (head?_ownFaults_eq_some_iff.1 hown)⟩
        exact List.head?_eq_none_iff.1 (List.findSome?_eq_none_iff.1 hnone operand (mem_operandsInOrder.2 hoperand))

theorem IsFault.unique (h : part.IsFault error) (h' : part.IsFault error') : error = error' := by
  cases h <;> cases h' <;> rfl

/-- There is one first fault at most. -/
theorem FirstFault.unique (h : pattern.FirstFault place error) (h' : pattern.FirstFault place' error') :
    error = error' := by
  obtain ⟨part, hpart, hfault⟩ := h.isFault
  obtain ⟨part', hpart', hfault'⟩ := h'.isFault
  by_cases heq : place = place'
  · subst heq
    rw [hpart] at hpart'
    cases hpart'
    exact hfault.unique hfault'
  · have hprecedes := h.precedes place' part' error' hpart' hfault' (Ne.symm heq)
    exact absurd (h'.precedes place part error hpart hfault heq) hprecedes.asymm

theorem head?_faults_eq_some_iff : pattern.faults.head? = some error ↔ ∃ place, pattern.FirstFault place error := by
  constructor
  · exact exists_firstFault
  · rintro ⟨place, h⟩
    cases hhead : pattern.faults.head? with
    | none =>
        obtain ⟨part, hpart, hfault⟩ := h.isFault
        exact absurd hfault (faults_eq_nil_iff.1 (List.head?_eq_none_iff.1 hhead) place part error hpart)
    | some error' =>
        obtain ⟨place', h'⟩ := exists_firstFault hhead
        rw [h.unique h']

/-! ## Pools behind a fault -/

theorem reachable_of_toExpr {pool after : Pool} {answer : Except Error Expr} (h : pool.Reachable)
    (hrun : pattern.toExpr.outcome pool = (answer, after)) : after.Reachable := by
  have hcall : ((Call.ofPattern pattern).run pool).2 = (pattern.toExpr.outcome pool).2 := by
    show ((Answer.expr <$> pattern.toExpr).outcome pool).2 = _
    cases hends : pattern.toExpr pool with
    | ok e after =>
        have hmap : (Answer.expr <$> pattern.toExpr) pool = .ok (.expr e) after := by
          rw [map_eq_pure_bind]
          exact bind_of_ok hends
        rw [Session.outcome_of_ok hends, Session.outcome_of_ok hmap]
    | error error after =>
        have hmap : (Answer.expr <$> pattern.toExpr) pool = .error error after := by
          rw [map_eq_pure_bind]
          exact bind_of_error hends
        rw [Session.outcome_of_error hends, Session.outcome_of_error hmap]
  have hreachable := Reachable.call (.ofPattern pattern) h (by simp [Call.handles])
  rwa [hcall, hrun] at hreachable

theorem answer_of_toExpr {pool after : Pool} {answer : Except Error Expr} (h : pool.Sound)
    (hrun : pattern.toExpr.outcome pool = (answer, after)) :
    pool.Grows after ∧ (∀ error, answer = .error error ↔ pattern.faults.head? = some error) ∧
      ∀ e, answer = .ok e → after.Has e := by
  rcases Session.outcome_cases (pattern.toExpr_yields h) with
    ⟨d, later, hends, hgrows, hnil, hd⟩ | ⟨error, later, hends, hgrows, hhead⟩
  · rw [hends] at hrun
    cases hrun
    exact ⟨hgrows, by simp [hnil], by simpa using hd.has⟩
  · rw [hends] at hrun
    cases hrun
    exact ⟨hgrows, by simp [hhead], by simp⟩

/-- The name of an assertion is that of no other one. -/
theorem Look.ofName?_name (look : Look) : Look.ofName? look.name = some look := by
  cases look <;> decide

/-- On every pool with a history, a pattern has no expression just if some part of it is an assertion that is not about
the ends of the input or a repetition with inverted bounds. The error is that of the part whose place comes first: it
carries the assertion, whose name its text gives, or the bounds.

The pool that is reached has a history like any other, whether there is a fault or not. It is in normal form, it holds
what was there before, and all that it holds stays: each node is found again under its handle, and no later call changes
it. -/
theorem first_fault_is_reported {pool : Pool} (h : pool.Reachable) (pattern : Pattern) :
    ∃ answer after, pattern.toExpr.outcome pool = (answer, after) ∧
      ((∃ error, answer = .error error) ↔ ∃ place part error, pattern.part? place = some part ∧ part.IsFault error) ∧
      (∀ error, answer = .error error ↔ ∃ place, pattern.FirstFault place error) ∧
      (∀ look, answer = .error (.unsupportedLook look) →
        (Error.unsupportedLook look).message = "unsupported feature: look-around assertion " ++ look.name ∧
          Look.ofName? look.name = some look) ∧
      (∀ e, answer = .ok e → after.Has e) ∧
      after.Reachable ∧ after.InNormalForm ∧
      (∀ e, pool.Has e → after.Has e ∧ after.node e = pool.node e) ∧
      (∀ e, after.Has e → after.ofNode (after.node e) = ⟨e, after⟩) ∧
      ∀ later, after.Later later → ∀ e, after.Has e → later.Has e ∧ later.node e = after.node e := by
  obtain ⟨answer, after, hrun⟩ : ∃ answer after, pattern.toExpr.outcome pool = (answer, after) := ⟨_, _, rfl⟩
  have hafter := reachable_of_toExpr h hrun
  obtain ⟨hgrows, herror, hok⟩ := answer_of_toExpr h.sound hrun
  have hcanonical := hafter.canonical
  have hext := hgrows.extends_pool h.sound
  refine ⟨answer, after, hrun, ?_, fun error => (herror error).trans head?_faults_eq_some_iff,
    fun look _ => ⟨rfl, look.ofName?_name⟩, hok, hafter, hcanonical.toInNormalForm,
    fun e he => ⟨hext.has he, hext.node_eq e he⟩, fun e he => hcanonical.ofNode_node he, fun later hlater e he => ?_⟩
  · simp only [herror]
    rw [← not_iff_not, not_exists, ← Option.eq_none_iff_forall_ne_some, List.head?_eq_none_iff, faults_eq_nil_iff]
    simp only [not_exists, not_and]
  · have hext' := (hlater.remembers hafter.sound).toExtends
    exact ⟨hext'.has he, hext'.node_eq e he⟩

/-- A pattern with four faults. -/
def manyFaults : Pattern :=
  .concat [.look .wordAscii, .capture 1 none (.alternation [.empty,
    .repetition 3 (some 2) true (.repetition 2 (some 1) false (.look .start)), .look .startLF])]

/-- The last part comes first, in it the first branch at fault, and there the operand. -/
theorem first_fault_of_manyFaults :
    manyFaults.part? [1, 0, 1, 0] = some (.repetition 2 (some 1) false (.look .start)) ∧
      ∃ after, manyFaults.toExpr.outcome Pool.new = (.error (.invalidRepeat 2 1), after) ∧ after.InNormalForm := by
  obtain ⟨answer, after, hrun, _, hfirst, _, _, _, hform, _⟩ := first_fault_is_reported .new manyFaults
  have hhead : manyFaults.faults.head? = some (.invalidRepeat 2 1) := by decide
  have hanswer := (hfirst _).2 (head?_faults_eq_some_iff.1 hhead)
  subst hanswer
  exact ⟨rfl, after, hrun, hform⟩

end Pattern

end RegexAlgebra
