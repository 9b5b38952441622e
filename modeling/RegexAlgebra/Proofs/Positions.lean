import RegexAlgebra.Proofs.Simulation

/-! # Anchored expressions read by derivatives

Nullability, derivatives and classes skip parts of an expression, and an anchor that stands there is not met. What they
give is right all the same, at every position of every input. An expression that is nullable matches the empty piece
wherever it stands. A derivative matches behind a symbol what the expression matches from the symbol on, in the same
input; so an anchor in what is left still looks at the ends of the whole input. Only an anchor that is met makes any of
them fail.
-/

namespace RegexAlgebra

open Pool

namespace Pieces

variable {c : Char} {R S R' S' D : List Char → Pieces}

/-! ## Behind a symbol -/

/-- A piece that starts with the symbol is one of the first relations just if what is left of it behind the symbol is
one of the second ones. -/
def Resumes (c : Char) (R R' : List Char → Pieces) : Prop :=
  ∀ ⦃input i j⦄, i < j → j ≤ input.length → input[i]? = some c → (R input i j ↔ R' input (i + 1) j)

namespace Resumes

theorem congr (h : Resumes c R R') (hagree : ∀ input, Agree input (D input) (R' input)) : Resumes c R D := by
  intro input i j hij hj hget
  rw [h hij hj hget, hagree input (i + 1) j ⟨hij, hj⟩]

theorem union (hR : Resumes c R R') (hS : Resumes c S S') :
    Resumes c (fun input i j => R input i j ∨ S input i j) fun input i j => R' input i j ∨ S' input i j :=
  fun _ _ _ hij hj hget => or_congr (hR hij hj hget) (hS hij hj hget)

theorem intersect (hR : Resumes c R R') (hS : Resumes c S S') :
    Resumes c (fun input i j => R input i j ∧ S input i j) fun input i j => R' input i j ∧ S' input i j :=
  fun _ _ _ hij hj hget => and_congr (hR hij hj hget) (hS hij hj hget)

theorem negate (hR : Resumes c R R') :
    Resumes c (fun input i j => ¬ R input i j) fun input i j => ¬ R' input i j :=
  fun _ _ _ hij hj hget => not_congr (hR hij hj hget)

/-- The symbol is read by the left part, or the left part is empty. -/
theorem concat_iff {input : List Char} {i j : Nat} (hR : Resumes c R R') (hij : i < j) (hj : j ≤ input.length)
    (hget : input[i]? = some c) :
    Concat (R input) (S input) i j ↔ Concat (R' input) (S input) (i + 1) j ∨ R input i i ∧ S input i j := by
  constructor
  · intro hparts
    obtain ⟨k, hik, hkj, hleft, hright⟩ := hparts
    rcases Nat.lt_or_eq_of_le hik with hlt | rfl
    · exact Or.inl ⟨k, hlt, hkj, (hR hlt (Nat.le_trans hkj hj) hget).1 hleft, hright⟩
    · exact Or.inr ⟨hleft, hright⟩
  · intro hparts
    rcases hparts with ⟨k, hik, hkj, hleft, hright⟩ | ⟨hleft, hright⟩
    · exact ⟨k, Nat.le_of_lt hik, hkj, (hR hik (Nat.le_trans hkj hj) hget).2 hleft, hright⟩
    · exact ⟨i, Nat.le_refl i, Nat.le_of_lt hij, hleft, hright⟩

theorem concat_left (hR : Resumes c R R') (hnil : ∀ input i, ¬ R input i i) :
    Resumes c (fun input => Concat (R input) (S input)) fun input => Concat (R' input) (S input) :=
  fun input i _ hij hj hget => (hR.concat_iff hij hj hget).trans (or_iff_left fun hright => hnil input i hright.1)

theorem concat_both (hR : Resumes c R R') (hS : Resumes c S S') (hnil : ∀ input i, R input i i) :
    Resumes c (fun input => Concat (R input) (S input))
      fun input i j => Concat (R' input) (S input) i j ∨ S' input i j := by
  intro input i j hij hj hget
  refine (hR.concat_iff hij hj hget).trans (or_congr_right ?_)
  rw [and_iff_right (hnil input i), hS hij hj hget]

/-- The symbol is read by the first part that is not empty. -/
theorem star (hR : Resumes c R R') :
    Resumes c (fun input => Star (R input)) fun input => Concat (R' input) (Star (R input)) := by
  intro input i j hij hj hget
  constructor
  · intro h
    rcases star_iff_parts.1 h with heq | ⟨hwhole, _⟩ | ⟨p, q, hip, hpq, hqj, hfirst, hinner, hlast⟩
    · exact absurd heq (Nat.ne_of_lt hij)
    · exact ⟨j, hij, Nat.le_refl j, (hR hij hj hget).1 hwhole, .refl _ j⟩
    · have hpj : p ≤ j := Nat.le_trans hpq (Nat.le_of_lt hqj)
      have hrest : Star (R input) p j := hinner.trans (.single (Nat.le_of_lt hqj) hlast)
      exact ⟨p, hip, hpj, (hR hip (Nat.le_trans hpj hj) hget).1 hfirst, hrest⟩
  · intro hparts
    obtain ⟨k, hik, hkj, hfirst, hrest⟩ := hparts
    exact .head (Nat.le_of_lt hik) ((hR hik (Nat.le_trans hkj hj) hget).2 hfirst) hrest

end Resumes

end Pieces

/-- The error says that an anchor was met. -/
def Error.MetAnchor (error : Error) : Prop := ∃ visitor, error = .anchorReached visitor

/-! ## Nullability -/

namespace Pieces

variable {R S : List Char → Pieces} {x y : Except Error Bool}

theorem concat_self {R S : Pieces} {i : Nat} : Concat R S i i ↔ R i i ∧ S i i := by
  constructor
  · intro hparts
    obtain ⟨k, hik, hki, hR, hS⟩ := hparts
    obtain rfl : i = k := Nat.le_antisymm hik hki
    exact ⟨hR, hS⟩
  · intro hparts
    exact ⟨i, Nat.le_refl i, Nat.le_refl i, hparts⟩

/-- The answer is whether the empty piece is matched, at all positions of all inputs alike; or there is none, as an
anchor was met. -/
def DecidesNil (R : List Char → Pieces) : Except Error Bool → Prop
  | .ok b => ∀ input i, b = true ↔ R input i i
  | .error error => error.MetAnchor

namespace DecidesNil

theorem congr (h : DecidesNil R x) (hnil : ∀ input i, S input i i ↔ R input i i) : DecidesNil S x := by
  cases x with
  | error error => exact h
  | ok b => exact fun input i => (h input i).trans (hnil input i).symm

theorem or (hR : DecidesNil R x) (hS : DecidesNil S y) :
    DecidesNil (fun input i j => R input i j ∨ S input i j) (do return (← x) || (← y)) := by
  cases x with
  | error error => exact hR
  | ok a =>
      cases y with
      | error error => exact hS
      | ok b => exact fun input i => (Bool.or_eq_true a b).to_iff.trans (or_congr (hR input i) (hS input i))

/-- If the first answer is no the second one is not asked for. -/
theorem and (hR : DecidesNil R x) (hS : DecidesNil S y) :
    DecidesNil (fun input i j => R input i j ∧ S input i j) (do if ← x then y else return false) := by
  cases x with
  | error error => exact hR
  | ok a =>
      cases a with
      | false => exact fun input i => iff_of_false Bool.false_ne_true fun h => Bool.false_ne_true ((hR input i).2 h.1)
      | true => exact hS.congr fun input i => and_iff_right ((hR input i).1 rfl)

theorem not (h : DecidesNil R x) : DecidesNil (fun input i j => ¬ R input i j) (do return !(← x)) := by
  cases x with
  | error error => exact h
  | ok b =>
      intro input i
      show (!b) = true ↔ ¬ R input i i
      rw [← h input i, Bool.not_eq_true', Bool.not_eq_true]

end DecidesNil

end Pieces

namespace Pool

variable {pool middle later : Pool} {e l r s a b d : Expr} {c : Char} {word : List Char}

theorem isNullable_decidesNil (pool : Pool) (e : Expr) :
    Pieces.DecidesNil (fun input => pool.Matches input e) (pool.isNullable e) := by
  induction e using operandInduction pool with
  | step e ih =>
      rw [isNullable_eq]
      simp only [matches_eq pool _ e]
      cases hn : pool.node e with
      | empty => exact fun input i => iff_of_false Bool.false_ne_true not_false
      | epsilon => exact fun input i => iff_of_true rfl rfl
      | startAnchor => exact ⟨.nullability, rfl⟩
      | endAnchor => exact ⟨.nullability, rfl⟩
      | range interval =>
          intro input i
          exact iff_of_false Bool.false_ne_true fun h => absurd h.1 (Nat.ne_of_lt i.lt_succ_self)
      | binary op l r =>
          rw [hn] at ih
          obtain ⟨hl, hr⟩ := Node.forall_operands_binary.1 ih
          cases op with
          | union => exact hl.or hr
          | intersect => exact hl.and hr
          | concat => exact (hl.and hr).congr fun input i => Pieces.concat_self
      | unary op s =>
          rw [hn] at ih
          cases op with
          | star => exact fun input i => iff_of_true rfl (.refl _ i)
          | negate => exact (Node.forall_operands_unary.1 ih).not

theorem matches_nil_iff {b : Bool} (h : pool.isNullable e = .ok b) (input : List Char) (i : Nat) :
    b = true ↔ pool.Matches input e i i := by
  have hdecides := isNullable_decidesNil pool e
  rw [h] at hdecides
  exact hdecides input i

theorem metAnchor_of_isNullable {error : Error} (h : pool.isNullable e = .error error) : error.MetAnchor := by
  have hdecides := isNullable_decidesNil pool e
  rw [h] at hdecides
  exact hdecides

/-! ## Derivatives -/

/-- In the later pool `d` matches behind the symbol what `e` matches from the symbol on. -/
structure IsRest (pool : Pool) (e : Expr) (c : Char) (d : Expr) (later : Pool) : Prop where
  has : later.Has d
  resumes : Pieces.Resumes c (fun input => pool.Matches input e) fun input => later.Matches input d

theorem IsRest.mono (h : IsRest pool e c d middle) (hext : Extends middle later) : IsRest pool e c d later where
  has := hext.has h.has
  resumes := by
    simp only [hext.matches_eq h.has]
    exact h.resumes

theorem Expresses.isRest {n : Node} {D : List Char → Pieces} (h : later.Expresses D d) (hn : pool.node e = n)
    (hD : Pieces.Resumes c (fun input => pool.NodeMatches input n) D) : IsRest pool e c d later where
  has := h.has
  resumes := by
    simp only [matches_of_node hn]
    exact hD.congr h.agree

theorem Sound.expresses_ofBool (h : pool.Sound) (p : Bool) :
    pool.Expresses (fun _ i j => p = true ∧ i = j) (.ofBool p) := by
  cases p with
  | false => exact h.expresses_empty.congr fun input => .of_iff fun i j => by simp
  | true => exact h.expresses_epsilon.congr fun input => .of_iff fun i j => by simp

/-- A symbol of the interval is all that the interval matches. -/
private theorem resumes_symbol (interval : Interval) :
    Pieces.Resumes c (fun input => Pieces.Symbol input (· ∈ interval))
      fun _ i j => interval.contains c = true ∧ i = j := by
  intro input i j hij hj hget
  rw [Interval.contains_iff]
  constructor
  · intro hparts
    obtain ⟨rfl, x, hx, hmem⟩ := hparts
    rw [hget] at hx
    cases hx
    exact ⟨hmem, rfl⟩
  · intro hparts
    exact ⟨hparts.2.symm, c, hget, hparts.1⟩

private theorem isRest_of_both {op : BinaryOp} {built : Built} (hop : op ≠ .concat)
    (hn : pool.node e = .binary op l r) (ha : IsRest pool l c a middle) (hb : IsRest pool r c b middle)
    (hsettles : middle.Settles (.binary op a b) built) : IsRest pool e c built.expr built.pool := by
  refine (hsettles.expresses_binary (expresses_matches ha.has) (expresses_matches hb.has)).isRest hn ?_
  cases op with
  | union => exact ha.resumes.union hb.resumes
  | intersect => exact ha.resumes.intersect hb.resumes
  | concat => exact absurd rfl hop

end Pool

namespace Expr

open Pool

variable {pool start : Pool} {e l r : Expr} {c : Char}

/-- The derivative of `o`, in any pool that the first one has grown into, is the rest of `o` or meets an anchor. -/
private def Resumed (pool : Pool) (c : Char) (o : Expr) : Prop :=
  ∀ start, pool.Grows start → Session.Ends (o.derivative c) start (IsRest pool o c) Error.MetAnchor

private theorem resumes_both {op : BinaryOp} (h : pool.Sound) (hop : op ≠ .concat) (hn : pool.node e = .binary op l r)
    (hgrows : pool.Grows start) (hl : Resumed pool c l) (hr : Resumed pool c r) :
    Session.Ends (e.derivativeOf c (.binary op l r)) start (IsRest pool e c) Error.MetAnchor := by
  have hends : Session.Ends (do
      let a ← l.derivative c
      let b ← r.derivative c
      Session.build (·.binary op a b)) start (IsRest pool e c) Error.MetAnchor := by
    refine (hl start hgrows).bind fun a middle hmiddle ha => ?_
    refine (hr middle (hgrows.trans hmiddle)).bind fun b later hlater hb => ?_
    have hsound := (hgrows.trans hmiddle).sound h
    have ha' := ha.mono (hlater.extends_pool hsound)
    exact (Session.ends_binary (hlater.sound hsound) op ha'.has hb.has).mono fun _ _ _ hsettles =>
      isRest_of_both hop hn ha' hb hsettles
  cases op with
  | union => exact hends
  | intersect => exact hends
  | concat => exact absurd rfl hop

/-- The left operand of a concatenation is empty at every position or at none, so the derivative may go by its
nullability. -/
private theorem resumes_concat (h : pool.Sound) (he : pool.Has e) (hn : pool.node e = .binary .concat l r)
    (hgrows : pool.Grows start) (hl : Resumed pool c l) (hr : Resumed pool c r) :
    Session.Ends (e.derivativeOf c (.binary .concat l r)) start (IsRest pool e c) Error.MetAnchor := by
  obtain ⟨hhasl, hhasr⟩ := has_of_binary hn he
  refine (hl start hgrows).bind fun a middle hmiddle ha => ?_
  have hsound := (hgrows.trans hmiddle).sound h
  have hright := (expresses_matches hhasr).mono ((hgrows.trans hmiddle).extends_pool h)
  refine (Session.ends_binary hsound .concat ha.has hright.has).bind fun first later hlater hsettles => ?_
  have hfirst := hsettles.expresses_binary (expresses_matches ha.has) hright
  have hgrows' := hgrows.trans (hmiddle.trans hlater)
  refine ((Session.ends_ask (·.isNullable l) later).mono_fails fun _ => metAnchor_of_isNullable).bind
    fun nullable _ _ hask => ?_
  obtain ⟨rfl, hnullable⟩ := hask
  have hnil : ∀ input i, nullable = true ↔ pool.Matches input l i i := by
    intro input i
    rw [matches_nil_iff hnullable input i, (hgrows'.extends_pool h).matches_eq hhasl]
  cases nullable with
  | false =>
      refine .pure (hfirst.isRest hn (ha.resumes.concat_left fun input i hempty => ?_))
      exact Bool.false_ne_true ((hnil input i).2 hempty)
  | true =>
      refine (hr _ hgrows').bind fun b last hlast hb => ?_
      have hfirst' := hfirst.mono (hlast.extends_pool hsettles.sound)
      refine (Session.ends_binary (hlast.sound hsettles.sound) .union hfirst'.has hb.has).mono fun _ _ _ hsum => ?_
      exact (hsum.expresses_binary hfirst' (expresses_matches hb.has)).isRest hn
        (ha.resumes.concat_both hb.resumes fun input i => (hnil input i).1 rfl)

/-- A derivative that can be taken, of whatever expression, matches behind the symbol what the expression matches from
the symbol on. -/
theorem derivative_resumes (h : pool.Sound) (he : pool.Has e) (c : Char) (hgrows : pool.Grows start) :
    Session.Ends (e.derivative c) start (IsRest pool e c) Error.MetAnchor := by
  induction e using operandInduction pool generalizing start with
  | step e ih =>
      have hsound := hgrows.sound h
      have hsub : ∀ o ∈ (pool.node e).operands, Resumed pool c o :=
        fun o ho _ hgrows => ih o ho (he.operand ho) hgrows
      refine Ends.congr (derivative_run e c start) ?_
      rw [(hgrows.extends_pool h).node_eq e he]
      cases hn : pool.node e with
      | empty => exact .pure (hsound.expresses_empty.isRest hn fun _ _ _ _ _ _ => Iff.rfl)
      | epsilon =>
          refine .pure (hsound.expresses_empty.isRest hn fun _ _ _ hij _ _ => ?_)
          exact iff_of_false (Nat.ne_of_lt hij) not_false
      | range interval => exact .pure ((hsound.expresses_ofBool _).isRest hn (resumes_symbol interval))
      | startAnchor => exact .throw ⟨.derivative, rfl⟩
      | endAnchor => exact .throw ⟨.derivative, rfl⟩
      | binary op l r =>
          rw [hn] at hsub
          obtain ⟨hl, hr⟩ := Node.forall_operands_binary.1 hsub
          by_cases hop : op = .concat
          · subst hop
            exact resumes_concat h he hn hgrows hl hr
          · exact resumes_both h hop hn hgrows hl hr
      | unary op s =>
          rw [hn] at hsub
          have hs := Node.forall_operands_unary.1 hsub start hgrows
          cases op with
          | star =>
              refine hs.bind fun a middle hmiddle ha => ?_
              have hself := (expresses_matches he).mono ((hgrows.trans hmiddle).extends_pool h)
              refine (Session.ends_binary (hmiddle.sound hsound) .concat ha.has hself.has).mono fun _ _ _ hsettles => ?_
              refine (hsettles.expresses_binary (expresses_matches ha.has) hself).isRest hn ?_
              simp only [matches_of_node hn]
              exact ha.resumes.star
          | negate =>
              refine hs.bind fun a middle hmiddle ha => ?_
              refine (Session.ends_unary (hmiddle.sound hsound) .negate ha.has).mono fun _ _ _ hsettles => ?_
              exact (hsettles.expresses_unary (expresses_matches ha.has)).isRest hn ha.resumes.negate

/-! ## Words -/

/-- In the later pool `d` matches the end of an input just if `e` matches the word in front of it. -/
structure IsRemainder (pool : Pool) (e : Expr) (word : List Char) (d : Expr) (later : Pool) : Prop where
  has : later.Has d
  matches_iff : ∀ before input, input = before ++ word →
    (pool.Matches input e before.length input.length ↔ later.Matches input d input.length input.length)

theorem residual_isRemainder (h : pool.Sound) (he : pool.Has e) (word : List Char) :
    Session.Ends (e.residual word) pool (IsRemainder pool e word) Error.MetAnchor := by
  induction word generalizing pool e with
  | nil =>
      refine .pure ⟨he, fun before input hinput => ?_⟩
      rw [hinput, List.append_nil]
  | cons c word ih =>
      refine (derivative_resumes h he c .refl).bind fun d middle hmiddle hd => ?_
      refine (ih (hmiddle.sound h) hd.has).mono fun last later _ hlast => ⟨hlast.has, fun before input hinput => ?_⟩
      have hlt : before.length < input.length := by simp [hinput]
      have hget : input[before.length]? = some c := by simp [hinput]
      have hrest := hlast.matches_iff (before ++ [c]) input (by simp [hinput])
      rw [List.length_append, List.length_singleton] at hrest
      exact (hd.resumes hlt (Nat.le_refl _) hget).trans hrest

theorem isMatch_matches (h : pool.Sound) (he : pool.Has e) (word : List Char) :
    Session.Ends (e.isMatch word) pool (fun b _ => b = true ↔ pool.Matches word e 0 word.length) Error.MetAnchor := by
  refine (residual_isRemainder h he word).bind fun d later _ hd => ?_
  refine ((Session.ends_ask (·.isNullable d) later).mono_fails fun _ => metAnchor_of_isNullable).mono
    fun b _ _ hask => ?_
  obtain ⟨rfl, hnullable⟩ := hask
  exact (matches_nil_iff hnullable word word.length).trans (hd.matches_iff [] word rfl).symm

/-! ## Answers -/

/-- An automaton that is built for any expression says of each word what the expression matches. -/
theorem automaton_matches {settings : Settings} {a : Automaton} {built : Pool} (h : pool.Sound) (he : pool.Has e)
    (hrun : (e.automaton settings).outcome pool = (.ok a, built)) (word : List Char) :
    ∃ b, a.isMatch word = .ok b ∧ (b = true ↔ pool.Matches word e 0 word.length) := by
  obtain ⟨hgrows, path, hexplores⟩ := (e.automaton_ends h he settings).of_ok (Session.ok_of_outcome hrun)
  have hbuilt := hgrows.sound h
  have hext := hgrows.extends_pool h
  obtain ⟨b, hmatch, hderivatives⟩ := (hexplores.simulates hbuilt).isMatch_eq word
  have hb := ((isMatch_matches hbuilt (hext.has he) word).of_ok (Session.ok_of_outcome hderivatives)).2
  rw [hext.matches_eq he] at hb
  exact ⟨b, hmatch, hb⟩

/-- Without anchors the words of the expression are those that it matches as a whole. -/
theorem automaton_decides {settings : Settings} {a : Automaton} {built : Pool} (h : pool.Sound) (he : pool.Has e)
    (hfree : pool.AnchorFree e) (hrun : (e.automaton settings).outcome pool = (.ok a, built)) (word : List Char) :
    ∃ b, a.isMatch word = .ok b ∧ (b = true ↔ word ∈ pool.language e) := by
  obtain ⟨b, hmatch, hb⟩ := automaton_matches h he hrun word
  exact ⟨b, hmatch, hb.trans (reads_language hfree).mem_iff.symm⟩

/-- On every pool with a history, matching any expression gives the answer for the whole input, with the anchors at its
ends, unless it meets an anchor; and it can only meet one that stands in the expression. An automaton that is built for
the expression always gives that answer. -/
theorem matching_decides_positions (h : pool.Reachable) (he : pool.Has e) :
    (∀ word,
      (∃ b later, (e.isMatch word).outcome pool = (.ok b, later) ∧
        (b = true ↔ pool.Matches word e 0 word.length)) ∨
      ∃ visitor later, (e.isMatch word).outcome pool = (.error (.anchorReached visitor), later) ∧
        pool.containsAnchor e = true) ∧
    ∀ settings a built, (e.automaton settings).outcome pool = (.ok a, built) →
      ∀ word, ∃ b, a.isMatch word = .ok b ∧ (b = true ↔ pool.Matches word e 0 word.length) := by
  constructor
  · intro word
    rcases Session.outcome_cases ((isMatch_matches h.sound he word).and (isMatch_ends h.sound he word)) with
      ⟨b, later, hrun, _, hb, _⟩ | ⟨error, later, hrun, _, ⟨visitor, rfl⟩, hfree⟩
    · exact Or.inl ⟨b, later, hrun, hb⟩
    · rw [← containsAnchor_eq_false_iff, Bool.not_eq_false] at hfree
      exact Or.inr ⟨visitor, later, hrun, hfree⟩
  · exact fun settings a built hrun word => automaton_matches h.sound he hrun word

/-- A symbol that is the empty word as well; there is none. -/
def noSymbol : Built := new.dot.pool.intersect .epsilon new.dot.expr

/-- The end of the input behind such a symbol. -/
def unreachedEnd : Built := noSymbol.pool.concat noSymbol.expr .endAnchor

theorem noSymbol_eq : noSymbol = new.dot.pool.store (.binary .intersect .epsilon ⟨4⟩) := by
  have hexpr : new.dot.expr = ⟨4⟩ := by rw [dot_new]; rfl
  have hopen : new.dot.pool.answer? (.binary .intersect .epsilon ⟨4⟩) = none := by
    rw [dot_new, answer?_store_of_ne (by simp), answer?_new]
  have hrule : new.dot.pool.rule .intersect .epsilon ⟨4⟩ = .keep := by rw [dot_new]; rfl
  rw [noSymbol, hexpr, intersect, binary_of_open hopen, hrule]

theorem unreachedEnd_eq : unreachedEnd = noSymbol.pool.store (.binary .concat ⟨5⟩ .endAnchor) := by
  have hexpr : noSymbol.expr = ⟨5⟩ := by rw [noSymbol_eq, dot_new]; rfl
  have hopen : noSymbol.pool.answer? (.binary .concat ⟨5⟩ .endAnchor) = none := by
    rw [noSymbol_eq, dot_new, answer?_store_of_ne (by simp), answer?_store_of_ne (by simp), answer?_new]
  have hrule : noSymbol.pool.rule .concat ⟨5⟩ .endAnchor = .keep := by rw [noSymbol_eq, dot_new]; rfl
  rw [unreachedEnd, hexpr, concat, binary_of_open hopen, hrule]

theorem answer?_unreachedEnd {op : BinaryOp} {f : Expr} :
    unreachedEnd.pool.answer? (.binary op .empty f) = none := by
  rw [unreachedEnd_eq, noSymbol_eq, dot_new, answer?_store_of_ne (by simp [Expr.empty]),
    answer?_store_of_ne (by simp [Expr.empty, epsilon]), answer?_store_of_ne (by simp), answer?_new]

theorem reachable_noSymbol : noSymbol.pool.Reachable :=
  reachable_dot.binary .intersect reachable_dot.sound.has_epsilon has_dot

theorem has_noSymbol : noSymbol.pool.Has noSymbol.expr :=
  (binary_settles reachable_dot.sound .intersect reachable_dot.sound.has_epsilon has_dot).answers.has

theorem reachable_unreachedEnd : unreachedEnd.pool.Reachable :=
  reachable_noSymbol.binary .concat has_noSymbol reachable_noSymbol.sound.has_endAnchor

theorem has_unreachedEnd : unreachedEnd.pool.Has unreachedEnd.expr :=
  (binary_settles reachable_noSymbol.sound .concat has_noSymbol reachable_noSymbol.sound.has_endAnchor).answers.has

theorem node_unreachedEnd :
    unreachedEnd.pool.node ⟨4⟩ = .range .full ∧ unreachedEnd.pool.node ⟨5⟩ = .binary .intersect .epsilon ⟨4⟩ ∧
      unreachedEnd.pool.node unreachedEnd.expr = .binary .concat ⟨5⟩ .endAnchor ∧
      unreachedEnd.pool.node .empty = .empty ∧ unreachedEnd.pool.node .epsilon = .epsilon := by
  rw [unreachedEnd_eq, noSymbol_eq, dot_new]
  exact ⟨rfl, rfl, rfl, rfl, rfl⟩

theorem containsAnchor_unreachedEnd : unreachedEnd.pool.containsAnchor unreachedEnd.expr = true := by
  rw [← Bool.not_eq_false, containsAnchor_eq_false_iff, anchorFree_of_binary node_unreachedEnd.2.2.1]
  intro hfree
  have hleaf := (anchorFree_iff.1 hfree.2).1
  rw [reachable_unreachedEnd.sound.leaves.2.2.2] at hleaf
  cases hleaf

/-- The pool behind a derivative of it. -/
def pastEnd : Pool :=
  ((unreachedEnd.pool.record (.binary .intersect .empty .epsilon) .empty).pool.record
    (.binary .concat .empty .endAnchor) .empty).pool

theorem isNullable_noSymbol {pool : Pool} (hany : pool.node ⟨4⟩ = .range .full)
    (hepsilon : pool.node .epsilon = .epsilon) (hnone : pool.node ⟨5⟩ = .binary .intersect .epsilon ⟨4⟩) :
    pool.isNullable ⟨5⟩ = .ok false := by
  have hleft : pool.isNullable .epsilon = .ok true := by rw [isNullable_eq, hepsilon]; rfl
  have hright : pool.isNullable ⟨4⟩ = .ok false := by rw [isNullable_eq, hany]; rfl
  rw [isNullable_eq, hnone, nodeIsNullable, hleft, hright]
  · rfl
  · rintro ⟨⟩

/-- Nothing is left behind any symbol. The answers on the way to that are recorded, and no node is stored. -/
theorem derivative_unreachedEnd (c : Char) :
    unreachedEnd.expr.derivative c unreachedEnd.pool = .ok .empty pastEnd := by
  obtain ⟨hany, hnone, hend, hempty, hepsilon⟩ := node_unreachedEnd
  have hfull : Interval.full.contains c = true := Interval.contains_iff.2 ⟨Symbol.first_le c, Symbol.le_last c⟩
  have hintersect : unreachedEnd.pool.binary .intersect .empty .epsilon =
      unreachedEnd.pool.record (.binary .intersect .empty .epsilon) .empty := binary_of_open answer?_unreachedEnd
  have hconcat : (unreachedEnd.pool.record (.binary .intersect .empty .epsilon) .empty).pool.binary .concat
      .empty .endAnchor = (unreachedEnd.pool.record (.binary .intersect .empty .epsilon) .empty).pool.record
        (.binary .concat .empty .endAnchor) .empty := by
    refine binary_of_open ?_
    rw [answer?_record, if_neg (by simp), answer?_unreachedEnd]
  have hnullable : pastEnd.isNullable ⟨5⟩ = .ok false := isNullable_noSymbol hany hepsilon hnone
  unfold pastEnd at hnullable ⊢
  rw [derivative_run, hend]
  simp [derivativeOf, bind, EStateM.bind, derivative_run, hnone, hany, hepsilon, Session.build, Session.ask, hfull,
    Expr.ofBool, pure, EStateM.pure, hintersect, hconcat, hnullable, expr_record]

/-- The automaton of an expression that is not nullable and of which nothing is left behind a symbol. -/
def deadEnd (e : Expr) : Automaton where
  initial := e
  rows := [⟨e, false, [⟨.full, .empty⟩]⟩, ⟨.empty, false, [⟨.full, .empty⟩]⟩]
  strategy := .atomicSweep

theorem automaton_deadEnd {pool later : Pool} {e : Expr} (hclasses : pool.classes e = .ok [.full])
    (hstep : e.derivative Symbol.first pool = .ok .empty later) (hnullable : later.isNullable e = .ok false)
    (hempty : later.node .empty = .empty) (hne : .empty ≠ e) :
    (e.automaton {}).outcome pool = (.ok (deadEnd e), later) := by
  have hclasses₀ : later.classes .empty = .ok [.full] := by rw [classes_eq, hempty]; rfl
  have hnullable₀ : later.isNullable .empty = .ok false := by rw [isNullable_eq, hempty]; rfl
  have hstep₀ : Expr.empty.derivative Symbol.first later = .ok .empty later := by rw [derivative_run, hempty]; rfl
  have hexplore : ∀ fuel, Exploration.exploreFrom none (fuel + 1 + 1 + 1) [e] [] pool =
      .ok (deadEnd e).rows later := by
    intro fuel
    simp [Exploration.exploreFrom, Exploration.expand, Exploration.discover, Exploration.checkLimit, Session.ask, bind,
      EStateM.bind, pure, EStateM.pure, Except.pure, Except.bind, deadEnd, Interval.full, hclasses, hclasses₀,
      hnullable, hnullable₀, hstep, hstep₀, hne]
  have hrun : Exploration.exploreFrom none handleBound [e] [] pool = _ := hexplore 4294967293
  apply Session.outcome_of_ok
  rw [automaton_run rfl, hrun]
  rfl

theorem automaton_unreachedEnd :
    (unreachedEnd.expr.automaton {}).outcome unreachedEnd.pool = (.ok (deadEnd unreachedEnd.expr), pastEnd) := by
  obtain ⟨hany, hnone, hend, hempty, hepsilon⟩ := node_unreachedEnd
  have hcells : Interval.full.cells = [.full] := by decide +kernel
  have hclasses : unreachedEnd.pool.classes unreachedEnd.expr = .ok [.full] := by
    have hleft : unreachedEnd.pool.classes .epsilon = .ok [.full] := by rw [classes_eq, hepsilon]; rfl
    have hright : unreachedEnd.pool.classes ⟨4⟩ = .ok [.full] := by rw [classes_eq, hany, nodeClasses, hcells]
    have hboth : unreachedEnd.pool.classes ⟨5⟩ = .ok [.full] := by
      rw [classes_eq, hnone, nodeClasses, bothClasses, hleft, hright]
      · decide +kernel
      · rintro ⟨⟩
    rw [classes_eq, hend, nodeClasses, isNullable_noSymbol hany hepsilon hnone, hboth]
    rfl
  have hnullable : pastEnd.isNullable unreachedEnd.expr = .ok false := by
    have hleft : pastEnd.isNullable ⟨5⟩ = .ok false := isNullable_noSymbol hany hepsilon hnone
    have hend' : pastEnd.node unreachedEnd.expr = .binary .concat ⟨5⟩ .endAnchor := hend
    rw [isNullable_eq, hend', nodeIsNullable, hleft]
    · rfl
    · rintro ⟨⟩
  have hnew : Expr.empty ≠ unreachedEnd.expr := by
    intro heq
    rw [← heq, hempty] at hend
    cases hend
  exact automaton_deadEnd hclasses (derivative_unreachedEnd _) hnullable hempty hnew

/-- The anchor is never met: matching answers, and the automaton is built and answers too. -/
theorem matching_of_unreachedEnd :
    unreachedEnd.pool.containsAnchor unreachedEnd.expr = true ∧
      (unreachedEnd.expr.isMatch ['0']).outcome unreachedEnd.pool = (.ok false, pastEnd) ∧
      ¬ unreachedEnd.pool.Matches ['0'] unreachedEnd.expr 0 1 ∧
      ∀ word, ∃ b, (deadEnd unreachedEnd.expr).isMatch word = .ok b ∧
        (b = true ↔ unreachedEnd.pool.Matches word unreachedEnd.expr 0 word.length) := by
  obtain ⟨_, _, _, hempty, _⟩ := node_unreachedEnd
  have hdecides := matching_decides_positions reachable_unreachedEnd has_unreachedEnd
  have hrun : (unreachedEnd.expr.isMatch ['0']).outcome unreachedEnd.pool = (.ok false, pastEnd) := by
    have hresidual : unreachedEnd.expr.residual ['0'] unreachedEnd.pool = .ok .empty pastEnd :=
      bind_of_ok (derivative_unreachedEnd '0')
    have hnullable : pastEnd.isNullable .empty = .ok false := by
      rw [isNullable_eq, show pastEnd.node .empty = .empty from hempty]
      rfl
    apply Session.outcome_of_ok
    refine (bind_of_ok hresidual).trans ?_
    rw [Session.ask, hnullable]
  refine ⟨containsAnchor_unreachedEnd, hrun, ?_, hdecides.2 {} _ pastEnd automaton_unreachedEnd⟩
  rcases hdecides.1 ['0'] with ⟨b, later, hanswer, hb⟩ | ⟨visitor, later, herror, _⟩
  · rw [hrun] at hanswer
    cases hanswer
    exact fun hmatch => Bool.false_ne_true (hb.2 hmatch)
  · rw [hrun] at herror
    cases herror

end Expr

end RegexAlgebra
