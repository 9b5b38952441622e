import RegexAlgebra.Proofs.Matching
import RegexAlgebra.Proofs.Operations
import RegexAlgebra.Proofs.Positions
import RegexAlgebra.Proofs.Termination

/-! # Searching for a pattern

The expression of a pattern matches what the pattern matches, so the removal of its anchors gives an expression of the
inputs in which the pattern matches a piece. Derivatives and automata both decide whether an input is one of them.
-/

namespace RegexAlgebra

open Pool

variable {pool : Pool} {d e : Expr} {L : Language Char} {pattern : Pattern}

/-- Which words have a property can be found out by matching them with the handle. -/
structure Pool.Decides (pool : Pool) (d : Expr) (property : List Char → Prop) : Prop where
  /-- Matching by derivatives always gives an answer. -/
  isMatch_iff : ∀ word, ∃ b later, (d.isMatch word).outcome pool = (.ok b, later) ∧ (b = true ↔ property word)
  /-- So does every automaton that is built, whatever the settings. -/
  automaton_iff : ∀ settings a later, (d.automaton settings).outcome pool = (.ok a, later) →
    ∀ word, ∃ b, a.isMatch word = .ok b ∧ (b = true ↔ property word)
  /-- Without a limit on its states, which are the residuals, an automaton is built just if there are handles for them. -/
  automaton_built : ∃ rows built, pool.Unfolds d rows built

theorem Pool.Denotes.decides (hd : pool.Denotes L d) (h : pool.Sound) (hcanonical : pool.Canonical) :
    pool.Decides d (· ∈ L) where
  isMatch_iff := fun word => hd.language_eq ▸ d.isMatch_outcome h hd.has hd.anchorFree word
  automaton_iff := fun _ _ _ hrun word => hd.language_eq ▸ Expr.automaton_decides h hd.has hd.anchorFree hrun word
  automaton_built := d.exists_unfolds h hcanonical hd.has hd.anchorFree

namespace Pattern

/-- A handle that expresses what a pattern matches occurs where the pattern does. -/
theorem occurs_iff (he : pool.Expresses (fun input => pattern.Matches input) e) (input : List Char) :
    pool.Occurs input e ↔ pattern.Occurs input :=
  exists_congr fun i => exists_congr fun j => and_congr_right fun hij => he.agree input i j hij

/-- On every pool with a history, a pattern without faults has an expression that matches just the pieces of every input
that the pattern matches, then and later. The removal of its anchors always gives an expression with which it can be
found out, by derivatives as well as by automata, whether the pattern matches a piece of a word. -/
theorem search_decides_occurrence (h : pool.Reachable) (hfaults : pattern.faults = []) :
    ∃ e built, pattern.toExpr.outcome pool = (.ok e, built) ∧
      Means ⟨e, built⟩ (fun input => pattern.Matches input) ∧
      ∀ later, built.Later later → ∃ d cleared, e.removeAnchors.outcome later = (.ok d, cleared) ∧
        ∀ last, cleared.Later last → last.Decides d pattern.Occurs := by
  have hyields := pattern.toExpr_yields h.sound
  rw [hfaults] at hyields
  obtain ⟨e, built, hrun, hgrows, _, he⟩ := Session.exists_outcome (hyields.mono_fails fun _ hhead => by cases hhead)
  have hbuilt := hgrows.sound h.sound
  refine ⟨e, built, hrun, he.means hbuilt, fun later hlater => ?_⟩
  have he' := he.mono (hlater.remembers hbuilt).toExtends
  have hsound := (hlater.grows hbuilt).sound hbuilt
  obtain ⟨d, cleared, hrun', hgrows', hd⟩ := Session.exists_outcome (Expr.removeAnchors_ends hsound he'.has)
  refine ⟨d, cleared, hrun', fun last hlast => ?_⟩
  have hcleared := hgrows'.sound hsound
  have hd' := hd.mono (hlast.remembers hcleared).toExtends
  have hall := hgrows.trans ((hlater.grows hbuilt).trans (hgrows'.trans (hlast.grows hcleared)))
  have hdecides := hd'.decides (hall.sound h.sound) (hall.canonical h.sound h.canonical)
  have hoccurs : (· ∈ later.occurrences e) = pattern.Occurs := funext fun word => propext (occurs_iff he' word)
  rwa [hoccurs] at hdecides

/-- The letter é in UTF-8, two or three letters as bytes, and a byte that is no UTF-8, at the end of the input. -/
def lastLetters : Pattern :=
  .concat [.literal [0xC3, 0xA9], .repetition 2 (some 3) true (.byteClass [(97, 122)]), .literal [0xFF], .look .finish]

private theorem spells_encoded : Spells [0xC3, 0xA9] ['é'] := Or.inl (by decide)

private theorem spells_byte : Spells [0xFF] ['ÿ'] := by
  refine Or.inr ⟨fun other hother => ?_, rfl⟩
  have hdecode : (ByteArray.mk [0xFF].toArray).utf8Decode? = none := by decide +kernel
  cases hdecode.symm.trans (utf8Decode?_eq_some_iff.2 hother)

private theorem occurs_lastLetters : lastLetters.Occurs ['0', 'é', 'a', 'b', 'ÿ'] := by
  have hletter : ∀ c : Char, 97 ≤ c.toNat → c.toNat ≤ 122 → ∃ range ∈ [((97 : UInt8), (122 : UInt8))],
      range.1.toNat ≤ c.toNat ∧ c.toNat ≤ range.2.toNat :=
    fun c hlow hhigh => ⟨(97, 122), List.mem_singleton_self _, hlow, hhigh⟩
  refine ⟨1, 5, ⟨by decide, by decide⟩, 2, by decide, by decide, spells_encoded, 4, by decide, by decide,
    ⟨2, by decide, by simp, ?_⟩, 5, by decide, by decide, spells_byte, 5, by decide, by decide, ⟨rfl, rfl⟩, rfl⟩
  exact ⟨3, by decide, by decide, ⟨rfl, 'a', rfl, hletter 'a' (by decide) (by decide)⟩,
    4, by decide, by decide, ⟨rfl, 'b', rfl, hletter 'b' (by decide) (by decide)⟩, rfl⟩

/-- Bytes that encode a letter are not read one by one. -/
private theorem not_occurs_lastLetters : ¬ lastLetters.Occurs ['Ã', '©', 'a', 'b', 'ÿ'] := by
  intro hparts
  obtain ⟨i, j, _, k, _, _, hspells, _⟩ := hparts
  have hslice := (spells_iff.1 hspells).trans (spells_iff.1 spells_encoded).symm
  have hmem : 'é' ∈ Pieces.slice ['Ã', '©', 'a', 'b', 'ÿ'] i k := hslice ▸ List.mem_singleton_self _
  exact absurd (List.mem_of_mem_drop (List.mem_of_mem_take hmem)) (by decide)

/-- The letter, the bytes behind it and the end of the input are found, by derivatives and by automata; without the
letter they are not. -/
theorem search_of_lastLetters :
    lastLetters.faults = [] ∧
    ∃ e built d cleared, lastLetters.toExpr.outcome new = (.ok e, built) ∧
      e.removeAnchors.outcome built = (.ok d, cleared) ∧
      (∃ last, (d.isMatch ['0', 'é', 'a', 'b', 'ÿ']).outcome cleared = (.ok true, last)) ∧
      (∃ last, (d.isMatch ['Ã', '©', 'a', 'b', 'ÿ']).outcome cleared = (.ok false, last)) ∧
      ∀ settings a last, (d.automaton settings).outcome cleared = (.ok a, last) →
        a.isMatch ['0', 'é', 'a', 'b', 'ÿ'] = .ok true ∧ a.isMatch ['Ã', '©', 'a', 'b', 'ÿ'] = .ok false := by
  obtain ⟨e, built, hrun, _, hsearch⟩ := search_decides_occurrence .new (show lastLetters.faults = [] from rfl)
  obtain ⟨d, cleared, hrun', hdecides⟩ := hsearch built .refl
  have hdecides := hdecides cleared .refl
  refine ⟨rfl, e, built, d, cleared, hrun, hrun', ?_, ?_, fun settings a last hbuilt => ⟨?_, ?_⟩⟩
  · obtain ⟨b, last, hmatch, hb⟩ := hdecides.isMatch_iff ['0', 'é', 'a', 'b', 'ÿ']
    exact ⟨last, hb.2 occurs_lastLetters ▸ hmatch⟩
  · obtain ⟨b, last, hmatch, hb⟩ := hdecides.isMatch_iff ['Ã', '©', 'a', 'b', 'ÿ']
    exact ⟨last, Bool.eq_false_iff.2 (mt hb.1 not_occurs_lastLetters) ▸ hmatch⟩
  · obtain ⟨b, hmatch, hb⟩ := hdecides.automaton_iff settings a last hbuilt ['0', 'é', 'a', 'b', 'ÿ']
    exact hb.2 occurs_lastLetters ▸ hmatch
  · obtain ⟨b, hmatch, hb⟩ := hdecides.automaton_iff settings a last hbuilt ['Ã', '©', 'a', 'b', 'ÿ']
    exact Bool.eq_false_iff.2 (mt hb.1 not_occurs_lastLetters) ▸ hmatch

end Pattern

end RegexAlgebra
