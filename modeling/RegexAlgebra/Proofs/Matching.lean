import RegexAlgebra.Proofs.Histories

/-! # Matching by derivatives

On every pool with a history, matching a word by derivatives decides the language of an expression without anchors, and
removing the anchors of any expression first decides whether the expression occurs in the word.
-/

namespace RegexAlgebra

open Pool

variable {pool : Pool} {e : Expr}

namespace Session

/-- A session that has no reason to fail has a value as its outcome. -/
theorem exists_outcome {α : Type} {session : Session α} {post : α → Pool → Prop}
    (h : Session.Ends session pool post fun _ => False) :
    ∃ a later, session.outcome pool = (.ok a, later) ∧ pool.Grows later ∧ post a later := by
  obtain ⟨a, later, hrun, hgrows, hpost⟩ := h.returns
  exact ⟨a, later, outcome_of_ok hrun, hgrows, hpost⟩

end Session

namespace Expr

/-! ## Words of an expression -/

theorem isMatch_outcome (h : pool.Sound) (he : pool.Has e) (hfree : pool.AnchorFree e) (word : List Char) :
    ∃ b later, (e.isMatch word).outcome pool = (.ok b, later) ∧ (b = true ↔ word ∈ pool.language e) := by
  have hends := (isMatch_ends h he word).mono_fails fun _ hnot => hnot hfree
  obtain ⟨b, later, hrun, _, hb⟩ := Session.exists_outcome hends
  exact ⟨b, later, hrun, hb hfree⟩

theorem derivative_outcome (h : pool.Sound) (he : pool.Has e) (hfree : pool.AnchorFree e) (c : Char) :
    ∃ d later, (e.derivative c).outcome pool = (.ok d, later) ∧ IsDerivative pool e c d later := by
  have hends := (derivative_ends h he c .refl).mono_fails fun _ hnot => hnot hfree
  obtain ⟨d, later, hrun, _, hd⟩ := Session.exists_outcome hends
  exact ⟨d, later, hrun, hd⟩

theorem nullable_of_nil_mem (hfree : pool.AnchorFree e) :
    ([] ∈ pool.language e → pool.nullable e = .ok .epsilon) ∧
      ([] ∉ pool.language e → pool.nullable e = .ok .empty) := by
  obtain ⟨b, hb, hnil⟩ := nullable_of_anchorFree hfree
  constructor
  · intro hmem
    rw [hb, hnil.2 hmem]
    rfl
  · intro hmem
    have hfalse : b = false := by simpa using mt hnil.1 hmem
    rw [hb, hfalse]
    rfl

/-- On every pool with a history, matching an expression without anchors always gives an answer, and the answer is
whether the word is one of its language. So do its parts: nullability is about the empty word, and the derivative has
no anchors and the words that are left behind a symbol. -/
theorem matching_decides_language (h : pool.Reachable) (he : pool.Has e) (hfree : pool.AnchorFree e) :
    (∀ word, ∃ b later, (e.isMatch word).outcome pool = (.ok b, later) ∧ (b = true ↔ word ∈ pool.language e)) ∧
    ([] ∈ pool.language e → pool.nullable e = .ok .epsilon) ∧
    ([] ∉ pool.language e → pool.nullable e = .ok .empty) ∧
    ∀ c, ∃ d later, (e.derivative c).outcome pool = (.ok d, later) ∧ later.Has d ∧ later.AnchorFree d ∧
      ∀ word, word ∈ later.language d ↔ c :: word ∈ pool.language e := by
  have hnullable := nullable_of_nil_mem hfree
  refine ⟨isMatch_outcome h.sound he hfree, hnullable.1, hnullable.2, fun c => ?_⟩
  obtain ⟨d, later, hrun, hd⟩ := derivative_outcome h.sound he hfree c
  refine ⟨d, later, hrun, hd.has, hd.anchorFree hfree, fun word => ?_⟩
  rw [hd.language_eq hfree, mem_after]

/-- The complement of the letters. -/
def nonLetter : Built := lowercase.pool.negate lowercase.expr

/-- The complement of the letters does not match a letter, and matches the empty word. -/
theorem matching_of_nonLetter :
    (∃ later, (nonLetter.expr.isMatch ['q']).outcome nonLetter.pool = (.ok false, later)) ∧
      nonLetter.pool.nullable nonLetter.expr = .ok .epsilon := by
  have hdenotes : nonLetter.pool.Denotes _ nonLetter.expr :=
    (negate_settles settles_lowercase.sound has_lowercase).denotes_unary settles_lowercase.denotes_range
  have hreachable : nonLetter.pool.Reachable := reachable_lowercase.unary .negate has_lowercase
  have hmatch := matching_decides_language hreachable hdenotes.has hdenotes.anchorFree
  constructor
  · obtain ⟨b, later, hrun, hb⟩ := hmatch.1 ['q']
    have hfalse : b = false := by
      rw [← Bool.not_eq_true, hb, hdenotes.language_eq]
      exact not_not_intro ⟨'q', by decide, rfl⟩
    exact ⟨later, hfalse ▸ hrun⟩
  · apply hmatch.2.1
    rw [hdenotes.language_eq]
    intro hparts
    obtain ⟨c, _, hword⟩ := hparts
    cases hword

/-! ## Occurrences of an expression -/

/-- On every pool with a history, removing the anchors of any expression always gives an expression without anchors,
which from then on matches just the words that the first one occurs in. -/
theorem removeAnchors_decides_occurrence (h : pool.Reachable) (he : pool.Has e) :
    ∃ d cleared, e.removeAnchors.outcome pool = (.ok d, cleared) ∧ cleared.Has d ∧ cleared.AnchorFree d ∧
      ∀ later, cleared.Later later → ∀ word, ∃ b last, (d.isMatch word).outcome later = (.ok b, last) ∧
        (b = true ↔ pool.Occurs word e) := by
  obtain ⟨d, cleared, hrun, hgrows, hd⟩ := Session.exists_outcome (removeAnchors_ends h.sound he)
  refine ⟨d, cleared, hrun, hd.has, hd.anchorFree, fun later hlater word => ?_⟩
  have hsound := hgrows.sound h.sound
  have hd' := hd.mono (hlater.remembers hsound).toExtends
  obtain ⟨b, last, hmatch, hb⟩ := isMatch_outcome ((hlater.grows hsound).sound hsound) hd'.has hd'.anchorFree word
  rw [hd'.language_eq] at hb
  exact ⟨b, last, hmatch, hb⟩

/-- Without its anchors, the expression of the empty input matches the empty word and no other one. -/
theorem removeAnchors_of_wholeEmpty :
    ∃ d cleared, wholeEmpty.expr.removeAnchors.outcome wholeEmpty.pool = (.ok d, cleared) ∧
      (∃ last, (d.isMatch []).outcome cleared = (.ok true, last)) ∧
        ∃ last, (d.isMatch ['a']).outcome cleared = (.ok false, last) := by
  have hoccurs : ∀ word, wholeEmpty.pool.Occurs word wholeEmpty.expr ↔ word = [] := by
    intro word
    constructor
    · intro hparts
      obtain ⟨i, j, hij, hmatch⟩ := hparts
      exact (matches_wholeEmpty word i j hij).1 hmatch
    · intro hempty
      have hwithin : Pieces.Within word 0 0 := ⟨Nat.le_refl 0, Nat.zero_le _⟩
      exact ⟨0, 0, hwithin, (matches_wholeEmpty word 0 0 hwithin).2 hempty⟩
  obtain ⟨d, cleared, hrun, _, _, hmatch⟩ := removeAnchors_decides_occurrence reachable_wholeEmpty has_wholeEmpty
  refine ⟨d, cleared, hrun, ?_, ?_⟩
  · obtain ⟨b, last, hlast, hb⟩ := hmatch cleared .refl []
    rw [hoccurs] at hb
    exact ⟨last, hb.2 rfl ▸ hlast⟩
  · obtain ⟨b, last, hlast, hb⟩ := hmatch cleared .refl ['a']
    rw [hoccurs] at hb
    have hfalse : b = false := by simpa using hb
    exact ⟨last, hfalse ▸ hlast⟩

end Expr

end RegexAlgebra
