import RegexAlgebra.Proofs.Matching
import RegexAlgebra.Proofs.Rewriting
import RegexAlgebra.Proofs.Termination

/-! # Anchors are detected, and come from nowhere

Both detectors of anchors find out whether one of the two anchor handles can be reached through operands: the search,
which ends once its stack is empty, and the recursion of a removal, whatever that remembers by then. What is built of
expressions without anchors has none, by whatever rule or record the request for it is answered.
-/

namespace RegexAlgebra

open Pool

variable {pool : Pool} {e d tail : Expr} {op : BinaryOp} {memo : AnchorMemo}

/-- The handle that was built is one of its pool, for an expression without anchors. -/
def Built.Plain (built : Built) : Prop := built.pool.Plain built.expr

namespace Pool

/-! ## Anchors by their handles -/

theorem Has.descendant (he : pool.Has e) (h : pool.IsDescendant e d) : pool.Has d := by
  induction h with
  | self => exact he
  | operand _ ho ih => exact ih.operand ho

theorem InNormalForm.isAnchor_iff (h : pool.InNormalForm) (he : pool.Has e) :
    (pool.node e).isAnchor = true ↔ e = .startAnchor ∨ e = .endAnchor := by
  obtain ⟨_, _, hstart, hend⟩ := h.leaves
  constructor
  · intro hanchor
    cases hn : pool.node e with
    | startAnchor => exact Or.inl (h.eq_of_node he (h.has_of_leaf (by decide)) (hn.trans hstart.symm))
    | endAnchor => exact Or.inr (h.eq_of_node he (h.has_of_leaf (by decide)) (hn.trans hend.symm))
    | _ => simp [hn, Node.isAnchor] at hanchor
  · rintro (rfl | rfl)
    · rw [hstart]
      rfl
    · rw [hend]
      rfl

theorem InNormalForm.containsAnchor_iff (h : pool.InNormalForm) (he : pool.Has e) :
    pool.containsAnchor e = true ↔ pool.IsDescendant e .startAnchor ∨ pool.IsDescendant e .endAnchor := by
  rw [← Bool.not_eq_false, containsAnchor_eq_false_iff]
  constructor
  · intro hanchored
    simp only [AnchorFree, not_forall, Bool.not_eq_false] at hanchored
    obtain ⟨d, hd, hanchor⟩ := hanchored
    rcases (h.isAnchor_iff (he.descendant hd)).1 hanchor with rfl | rfl
    · exact Or.inl hd
    · exact Or.inr hd
  · intro hreached hfree
    rcases hreached with hd | hd
    · exact absurd (hfree _ hd) (by simp [h.leaves.2.2.1, Node.isAnchor])
    · exact absurd (hfree _ hd) (by simp [h.leaves.2.2.2, Node.isAnchor])

/-! ## The recursion agrees with the search -/

theorem isAnchored_eq_containsAnchor (hmemo : pool.MemoSound memo) (he : pool.Has e) :
    (pool.isAnchored e memo).1 = pool.containsAnchor e := by
  rw [Bool.eq_iff_iff, (isAnchored_spec hmemo he).1, ← containsAnchor_eq_false_iff, Bool.not_eq_false]

theorem isAnchored_of_reached {removal : Removal} (h : removal.Reached) (he : removal.pool.Has e) :
    ∃ after, Removal.isAnchored e removal = .ok (removal.pool.containsAnchor e) after ∧ after.pool = removal.pool := by
  rw [← isAnchored_eq_containsAnchor h.faithful.anchored he]
  exact ⟨_, rfl, rfl⟩

/-! ## What is built without anchors -/

theorem Settles.plain {request : Node} {built : Built} (h : pool.Settles request built)
    (hleaf : request.isAnchor = false) (hops : ∀ o ∈ request.operands, pool.AnchorFree o) : built.Plain := by
  have hext := h.remembers.toExtends
  exact ⟨h.answers.has, h.answers.anchorFree hleaf fun o ho => (hext.anchorFree_iff (h.operands_has o ho)).2 (hops o ho)⟩

theorem Sound.plain_empty (h : pool.Sound) : pool.Plain .empty := ⟨h.has_empty, h.anchorFree_empty⟩

theorem Sound.plain_epsilon (h : pool.Sound) : pool.Plain .epsilon := ⟨h.has_epsilon, h.anchorFree_epsilon⟩

theorem range_plain (h : pool.Sound) (low high : Char) : (pool.range low high).Plain :=
  (range_settles h low high).plain rfl (by simp [Node.operands])

theorem binary_plain (h : pool.Sound) (op : BinaryOp) (he : pool.Plain e) (hd : pool.Plain d) :
    (pool.binary op e d).Plain :=
  (binary_settles h op he.1 hd.1).plain rfl (Node.forall_operands_binary.2 ⟨he.2, hd.2⟩)

theorem unary_plain (h : pool.Sound) (op : UnaryOp) (he : pool.Plain e) : (pool.unary op e).Plain :=
  (unary_settles h op he.1).plain rfl (Node.forall_operands_unary.2 he.2)

theorem prepend_plain (h : pool.Sound) (he : pool.Plain e) (htail : pool.Plain tail) (count : Nat) :
    pool.Grows (pool.prepend e count tail).pool ∧ (pool.prepend e count tail).Plain := by
  induction count generalizing pool tail with
  | zero => exact ⟨.refl, htail⟩
  | succ count ih =>
      have hfirst : pool.Grows (pool.concat e tail).pool := .binary .concat .refl he.1 htail.1
      obtain ⟨hgrows, hplain⟩ :=
        ih (hfirst.sound h) (he.mono (hfirst.extends_pool h)) (binary_plain h .concat he htail)
      exact ⟨hfirst.trans hgrows, hplain⟩

theorem repeat?_plain {min max : Nat} (h : pool.Sound) (he : pool.Plain e) (hle : min ≤ max) :
    ∃ built, pool.repeat? e min max = .ok built ∧ built.Plain := by
  have hopt : pool.Grows (pool.opt e).pool := .binary .union .refl h.has_epsilon he.1
  have hsound := hopt.sound h
  obtain ⟨hgrows, htail⟩ :=
    prepend_plain hsound (binary_plain h .union h.plain_epsilon he) hsound.plain_epsilon (max - min)
  have hbefore := hopt.trans hgrows
  obtain ⟨_, hplain⟩ := prepend_plain (hbefore.sound h) (he.mono (hbefore.extends_pool h)) htail min
  exact ⟨_, if_neg (Nat.not_lt.2 hle), hplain⟩

end Pool

/-! ## Pools with a history -/

/-- On every pool with a history, the search for anchors in an expression ends, and finds one just if the handle of one
of the two anchors can be reached through operands; at every point of a removal the recursion finds the same, whatever
is remembered there. All that is built of expressions without anchors has none: by the constructors, as a repetition,
and as a derivative, which does not fail. -/
theorem anchors_are_detected (h : pool.Reachable) :
    (∀ e, pool.Has e → pool.Searches [e] [] (pool.containsAnchor e) ∧
      (pool.containsAnchor e = true ↔ pool.IsDescendant e .startAnchor ∨ pool.IsDescendant e .endAnchor) ∧
      (pool.containsAnchor e = false ↔ pool.Plain e)) ∧
    (∀ removal, Removal.Reached removal → ∀ e, removal.pool.Has e →
      ∃ after, Removal.isAnchored e removal = .ok (removal.pool.containsAnchor e) after ∧ after.pool = removal.pool) ∧
    (pool.Plain .empty ∧ pool.Plain .epsilon ∧ pool.dot.Plain ∧ pool.all.Plain) ∧
    (∀ c, (pool.char c).Plain) ∧
    (∀ low high, (pool.range low high).Plain) ∧
    (∀ op e f, pool.Plain e → pool.Plain f → (pool.binary op e f).Plain) ∧
    (∀ op e, pool.Plain e → (pool.unary op e).Plain) ∧
    (∀ e, pool.Plain e → (pool.opt e).Plain) ∧
    (∀ e count, pool.Plain e → (pool.repeatExactly e count).Plain) ∧
    (∀ e min max, pool.Plain e → min ≤ max → ∃ built, pool.repeat? e min max = .ok built ∧ built.Plain) ∧
    ∀ e c, pool.Plain e → ∃ d later, (e.derivative c).outcome pool = (.ok d, later) ∧ later.Plain d := by
  have hsound := h.sound
  have hform := h.canonical.toInNormalForm
  refine ⟨fun e he => ⟨pool.searches_containsAnchor e, hform.containsAnchor_iff he, ?_⟩,
    fun removal hreached e he => isAnchored_of_reached hreached he, ⟨hsound.plain_empty, hsound.plain_epsilon, ?_, ?_⟩,
    fun c => range_plain hsound c c, range_plain hsound, fun op e f => binary_plain hsound op,
    fun op e => unary_plain hsound op, fun e => binary_plain hsound .union hsound.plain_epsilon, ?_, ?_, ?_⟩
  · exact containsAnchor_eq_false_iff.trans (and_iff_right he).symm
  · exact range_plain hsound Symbol.first Symbol.last
  · exact unary_plain hsound .negate hsound.plain_empty
  · exact fun e count he => (prepend_plain hsound he hsound.plain_epsilon count).2
  · exact fun e min max he hle => repeat?_plain hsound he hle
  · intro e c he
    obtain ⟨d, later, hrun, hd⟩ := Expr.derivative_outcome hsound he.1 he.2 c
    exact ⟨d, later, hrun, hd.has, hd.anchorFree he.2⟩

/-- One anchor after the other is found to hold anchors, also by a removal that knows the end anchor already. Two or
three times the empty word, asked for on the same pool, are not. -/
theorem anchors_of_wholeEmpty :
    wholeEmpty.pool.Reachable ∧ wholeEmpty.pool.containsAnchor wholeEmpty.expr = true ∧
      (∃ removal after, Removal.isAnchored .endAnchor (.start wholeEmpty.pool) = .ok true removal ∧
        Removal.isAnchored wholeEmpty.expr removal = .ok true after) ∧
      ∃ built, wholeEmpty.pool.repeat? .epsilon 2 3 = .ok built ∧ built.Plain := by
  have hreachable := reachable_wholeEmpty
  have hhas := has_wholeEmpty
  have hend : wholeEmpty.pool.IsOperand .endAnchor wholeEmpty.expr := by simp [IsOperand, node_wholeEmpty, Node.operands]
  obtain ⟨hfound, hagree, ⟨_, hepsilon, _⟩, _, _, _, _, _, _, hrepeat, _⟩ := anchors_are_detected hreachable
  have hfound' : ∀ e, wholeEmpty.pool.Has e → wholeEmpty.pool.IsDescendant e .endAnchor →
      wholeEmpty.pool.containsAnchor e = true := fun e he hd => (hfound e he).2.1.2 (Or.inr hd)
  have hwhole := hfound' _ hhas (.operand .self hend)
  have hknown := hfound' _ (hhas.operand hend) .self
  have hstart : Removal.Reached (.start wholeEmpty.pool) := .start hreachable
  obtain ⟨removal, hremoval, hpool⟩ : ∃ removal, Removal.isAnchored .endAnchor (.start wholeEmpty.pool) =
      .ok (wholeEmpty.pool.containsAnchor .endAnchor) removal ∧ removal.pool = wholeEmpty.pool :=
    hagree (.start wholeEmpty.pool) hstart .endAnchor (hhas.operand hend)
  have hreached : Removal.Reached removal := hstart.searched (hhas.operand hend) hremoval
  obtain ⟨after, hafter, _⟩ := hagree removal hreached wholeEmpty.expr (hpool ▸ hhas)
  rw [hpool, hwhole] at hafter
  rw [hknown] at hremoval
  exact ⟨hreachable, hwhole, ⟨removal, after, hremoval, hafter⟩, hrepeat _ 2 3 hepsilon (by decide)⟩

end RegexAlgebra
