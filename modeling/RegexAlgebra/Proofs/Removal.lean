import RegexAlgebra.Anchor.Removal
import RegexAlgebra.Proofs.Contexts
import RegexAlgebra.Proofs.Replay

/-! # Removal of anchors

A removal works on languages throughout: what it finds for an expression in a context is an expression without anchors
whose words are those of the pieces in that context. Each step is stated by the language it finds, in whatever state it
is taken, so that the steps of a concatenation or a star are put together as their languages are. The memory of results
is right for good, since what an expression matches does not change as the pool grows; and each step that is taken again
on a later pool finds the same handle.
-/

namespace RegexAlgebra

namespace Pool

variable {pool later : Pool} {e f d : Expr} {L M : Language Char}

/-- The expression has no anchors, and its words are those of the language. -/
structure Denotes (pool : Pool) (L : Language Char) (e : Expr) : Prop where
  has : pool.Has e
  anchorFree : pool.AnchorFree e
  language_eq : pool.language e = L

theorem Denotes.mono (h : pool.Denotes L e) (hext : Extends pool later) : later.Denotes L e where
  has := hext.has h.has
  anchorFree := (hext.anchorFree_iff h.has).2 h.anchorFree
  language_eq := by rw [hext.language_eq h.has h.anchorFree, h.language_eq]

theorem Sound.denotes_empty (h : pool.Sound) : pool.Denotes 0 .empty :=
  ⟨h.has_empty, h.anchorFree_empty, language_of_node h.leaves.1⟩

theorem Sound.denotes_epsilon (h : pool.Sound) : pool.Denotes 1 .epsilon :=
  ⟨h.has_epsilon, h.anchorFree_epsilon, language_of_node h.leaves.2.1⟩

theorem Sound.denotes_ofBool (h : pool.Sound) (b : Bool) : pool.Denotes (if b = true then 1 else 0) (.ofBool b) := by
  cases b with
  | false => exact h.denotes_empty
  | true => exact h.denotes_epsilon

theorem Settles.denotes_binary {op : BinaryOp} {built : Built} (h : pool.Settles (.binary op e f) built)
    (he : pool.Denotes L e) (hf : pool.Denotes M f) : built.pool.Denotes (op.language L M) built.expr := by
  have hlanguage := h.language_binary he.anchorFree hf.anchorFree
  rw [he.language_eq, hf.language_eq] at hlanguage
  exact ⟨h.answers.has, hlanguage.1, hlanguage.2⟩

theorem Settles.denotes_unary {op : UnaryOp} {built : Built} (h : pool.Settles (.unary op e) built)
    (he : pool.Denotes L e) : built.pool.Denotes (op.language L) built.expr := by
  have hlanguage := h.language_unary he.anchorFree
  rw [he.language_eq] at hlanguage
  exact ⟨h.answers.has, hlanguage.1, hlanguage.2⟩

theorem Settles.denotes_range {interval : Interval} {built : Built} (h : pool.Settles (.range interval) built) :
    built.pool.Denotes {word | ∃ c, c ∈ interval ∧ word = [c]} built.expr := by
  have hops : ∀ o ∈ (Node.range interval).operands, built.pool.AnchorFree o := by simp [Node.operands]
  exact ⟨h.answers.has, h.answers.anchorFree rfl hops, h.answers.language_eq rfl hops⟩

/-- The inputs in which an expression matches a piece. -/
def occurrences (pool : Pool) (e : Expr) : Language Char := {input | pool.Occurs input e}

/-- An expression occurs in an input as the whole of it, in front, at the back, or in the middle. -/
theorem occurrences_eq (pool : Pool) (e : Expr) :
    pool.occurrences e = pool.contextLanguage e true true +
      (pool.contextLanguage e true false * nonEmpty ⊤ +
        (nonEmpty ⊤ * pool.contextLanguage e false true +
          nonEmpty ⊤ * (pool.contextLanguage e false false * nonEmpty ⊤))) :=
  Language.ext fun input => occurs_iff pool e input

theorem occurrences_of_anchorFree (hfree : pool.AnchorFree e) :
    pool.occurrences e = ⊤ * (pool.language e * ⊤) := by
  have htop : (⊤ : Language Char) = 1 + nonEmpty ⊤ := by
    apply Language.ext
    intro word
    rw [Language.mem_add, Language.mem_one, mem_nonEmpty]
    exact iff_of_true trivial ((em (word = [])).imp_right fun hne => ⟨trivial, hne⟩)
  rw [occurrences_eq]
  simp only [contextLanguage_of_anchorFree hfree]
  conv_rhs => rw [htop]
  simp only [add_mul, mul_add, one_mul, mul_one, add_assoc]
  rw [add_left_comm (nonEmpty ⊤ * pool.language e)]

end Pool

namespace Removal

open Pool

variable {pool later : Pool} {removal : Removal} {e f d : Expr} {L M : Language Char} {atStart atEnd : Bool}

/-! ## Sound removals -/

/-- The pool of the removal is sound, and what the removal remembers is right. -/
structure Sound (removal : Removal) : Prop where
  pool : removal.pool.Sound
  anchored : removal.pool.MemoSound removal.anchored
  results : ∀ e atStart atEnd d, removal.results[(e, atStart, atEnd)]? = some d →
    removal.pool.Has e ∧ removal.pool.Denotes (removal.pool.contextLanguage e atStart atEnd) d

theorem sound_start (h : pool.Sound) : (start pool).Sound where
  pool := h
  anchored := pool.memoSound_empty
  results := fun e atStart atEnd d hd => by simp [start] at hd

theorem Sound.grow (h : removal.Sound) (hgrows : removal.pool.Grows later) : Sound { removal with pool := later } where
  pool := hgrows.sound h.pool
  anchored := h.anchored.mono (hgrows.extends_pool h.pool)
  results := fun e atStart atEnd d hd => by
    have hext := hgrows.extends_pool h.pool
    obtain ⟨he, hdenotes⟩ := h.results e atStart atEnd d hd
    refine ⟨hext.has he, ?_⟩
    rw [hext.contextLanguage_eq he]
    exact hdenotes.mono hext

/-! ## Steps that find a language -/

/-- Wherever the pool behind the step is remembered, the step ends as it did and leaves the pool as it is. -/
abbrev StepRepeats {α : Type} (step : Step α) (removal : Removal) : Prop :=
  Repeats Removal.pool (fun removal later => { removal with pool := later }) step step removal

/-- The step gives an expression without anchors for the language, does not fail, and does the same again. -/
structure Finds (step : Step Expr) (removal : Removal) (L : Language Char) : Prop where
  ends : Ends Removal.pool step removal (fun d later => later.Sound ∧ later.pool.Denotes L d) fun _ => False
  repeats : StepRepeats step removal

/-- What denotes a language in one removal still does so in a later one. -/
def Keeps (removal later : Removal) : Prop :=
  ∀ L e, removal.pool.Denotes L e → later.pool.Denotes L e

theorem Finds.pure (h : removal.Sound) (he : removal.pool.Denotes L e) : Finds (Pure.pure e) removal L :=
  ⟨.pure ⟨h, he⟩, .pure e removal⟩

theorem Finds.bind {step : Step Expr} {next : Expr → Step Expr} (h : removal.Sound) (hstep : Finds step removal L)
    (hnext : ∀ d middle, removal.pool.Grows middle.pool → middle.Sound → removal.Keeps middle →
      middle.pool.Denotes L d → Finds (next d) middle M) :
    Finds (step >>= next) removal M := by
  have hrest : ∀ d middle, removal.pool.Grows middle.pool → middle.Sound ∧ middle.pool.Denotes L d →
      Finds (next d) middle M := fun d middle hgrows hmiddle =>
    hnext d middle hgrows hmiddle.1 (fun _ _ he => he.mono (hgrows.extends_pool h.pool)) hmiddle.2
  constructor
  · exact hstep.ends.bind fun d middle hgrows hmiddle => (hrest d middle hgrows hmiddle).ends
  · apply hstep.repeats.bind
    intro d middle hrun
    obtain ⟨hgrows, hmiddle⟩ := hstep.ends.of_ok hrun
    exact (hrest d middle hgrows hmiddle).repeats

theorem repeats_build {constructor : Pool → Built} {request : Node}
    (hsettles : removal.pool.Settles request (constructor removal.pool))
    (hagain : ∀ later, Remembers (constructor removal.pool).pool later →
      constructor later = ⟨(constructor removal.pool).expr, later⟩) :
    StepRepeats (build constructor) removal := by
  refine ⟨hsettles.remembers, fun later hlater => ?_⟩
  simp only [build, hagain later hlater]

theorem finds_binary (h : removal.Sound) (op : BinaryOp) (he : removal.pool.Denotes L e)
    (hf : removal.pool.Denotes M f) : Finds (build (·.binary op e f)) removal (op.language L M) := by
  have hgrows : removal.pool.Grows (removal.pool.binary op e f).pool := .binary op .refl he.has hf.has
  have hsettles := binary_settles h.pool op he.has hf.has
  exact ⟨⟨hgrows, h.grow hgrows, hsettles.denotes_binary he hf⟩,
    repeats_build hsettles fun _ hlater => hsettles.binary_again hlater⟩

theorem finds_unary (h : removal.Sound) (op : UnaryOp) (he : removal.pool.Denotes L e) :
    Finds (build (·.unary op e)) removal (op.language L) := by
  have hgrows : removal.pool.Grows (removal.pool.unary op e).pool := .unary op .refl he.has
  have hsettles := unary_settles h.pool op he.has
  exact ⟨⟨hgrows, h.grow hgrows, hsettles.denotes_unary he⟩,
    repeats_build hsettles fun _ hlater => hsettles.unary_again hlater⟩

/-- A step that takes two further ones and combines what they find. -/
def both (op : BinaryOp) (first second : Step Expr) : Step Expr := do
  let a ← first
  let b ← second
  build (·.binary op a b)

theorem finds_both {first second : Step Expr} (h : removal.Sound) (op : BinaryOp) (hfirst : Finds first removal L)
    (hsecond : ∀ later, removal.pool.Grows later.pool → later.Sound → Finds second later M) :
    Finds (both op first second) removal (op.language L M) := by
  apply hfirst.bind h
  intro a middle hgrows hmiddle _ ha
  apply (hsecond middle hgrows hmiddle).bind hmiddle
  intro b later _ hlater hkeeps hb
  exact finds_binary hlater op (hkeeps L a ha) hb

theorem Finds.congr {step step' : Step Expr} (h : Finds step' removal L)
    (hsame : ∀ later, Remembers removal.pool later →
      step { removal with pool := later } = step' { removal with pool := later }) : Finds step removal L where
  ends := h.ends.congr (hsame removal.pool (.refl removal.pool))
  repeats := h.repeats.congr (hsame removal.pool (.refl removal.pool)) hsame

/-- A question that has an answer for good is asked and answered in place. -/
theorem finds_ask {α : Type} {question : Pool → Except Error α} {a : α} {next : α → Step Expr}
    (hanswer : ∀ later, Extends removal.pool later → question later = .ok a) (hnext : Finds (next a) removal L) :
    Finds (ask question >>= next) removal L := by
  apply hnext.congr
  intro later hlater
  apply bind_of_ok
  simp only [ask, hanswer later hlater.toExtends]

theorem finds_consuming (h : removal.Sound) (he : removal.pool.Denotes L e) :
    Finds (consuming e) removal (nonEmpty L) := by
  unfold consuming
  by_cases hleaf : e = .epsilon ∨ e = .empty
  · have hempty : nonEmpty L = 0 := by
      rw [← he.language_eq]
      rcases hleaf with heq | heq
      · rw [heq, h.pool.denotes_epsilon.language_eq]
        exact Language.ext fun word => iff_of_false (fun hword => hword.2 hword.1) (Language.notMem_zero word)
      · rw [heq, h.pool.denotes_empty.language_eq]
        exact Language.ext fun word => iff_of_false (fun hword => hword.1) (Language.notMem_zero word)
    rw [if_pos hleaf, hempty]
    exact .pure h h.pool.denotes_empty
  · rw [if_neg hleaf]
    obtain ⟨b, hb, hnil⟩ := isNullable_of_anchorFree he.anchorFree
    rw [he.language_eq] at hnil
    apply finds_ask fun later hext => (hext.isNullable_eq he.has).trans hb
    cases b with
    | false =>
        have hall : nonEmpty L = L := by
          apply Language.ext
          intro word
          refine and_iff_left_of_imp fun hword heq => ?_
          simpa using hnil.2 (heq ▸ hword)
        rw [hall]
        exact .pure h he
    | true =>
        apply (finds_unary h .negate h.pool.denotes_epsilon).bind h
        intro some middle _ hmiddle hkeeps hsome
        exact finds_binary hmiddle .intersect (hkeeps L e he) hsome

theorem finds_vanishing (h : removal.Sound) (he : removal.pool.Denotes L e) :
    Finds (vanishing e) removal (emptyPart L) := by
  obtain ⟨b, hb, hnil⟩ := nullable_of_anchorFree he.anchorFree
  rw [he.language_eq] at hnil
  have hpart : emptyPart L = if b = true then 1 else 0 := by
    apply Language.ext
    intro word
    rw [mem_emptyPart]
    split
    · rename_i htrue
      rw [Language.mem_one]
      exact ⟨fun hword => hword.2, fun heq => ⟨heq ▸ hnil.1 htrue, heq⟩⟩
    · rename_i hfalse
      exact iff_of_false (fun hword => hfalse (hnil.2 (hword.2 ▸ hword.1))) (Language.notMem_zero word)
  rw [hpart]
  unfold vanishing
  rw [← bind_pure (ask _)]
  refine finds_ask (fun later hext => ?_) (.pure h (h.pool.denotes_ofBool b))
  rw [nullable, hext.isNullable_eq he.has]
  exact hb

/-! ## Results in context -/

/-- A step that looks at the operand of `e` in a context and takes a part of what it finds there. -/
def part (take : Expr → Step Expr) (e : Expr) (atStart atEnd : Bool) : Step Expr :=
  inContext e atStart atEnd >>= take

/-- One layer of a result: what it is made of, by the node of `e`. -/
def layer (e : Expr) (atStart atEnd : Bool) : Node → Step Expr
  | .startAnchor => pure (.ofBool atStart)
  | .endAnchor => pure (.ofBool atEnd)
  | .empty => pure e
  | .epsilon => pure e
  | .range _ => pure e
  | .binary .union left right => both .union (inContext left atStart atEnd) (inContext right atStart atEnd)
  | .binary .intersect left right => both .intersect (inContext left atStart atEnd) (inContext right atStart atEnd)
  | .binary .concat left right =>
    both .union (both .concat (part consuming left atStart false) (part consuming right false atEnd))
      (both .union (both .concat (part vanishing left atStart false) (part consuming right atStart atEnd))
        (both .union (both .concat (part consuming left atStart atEnd) (part vanishing right false atEnd))
          (both .concat (part vanishing left atStart atEnd) (part vanishing right atStart atEnd))))
  | .unary .negate sub => do
    let a ← inContext sub atStart atEnd
    build (·.unary .negate a)
  | .unary .star sub => do
    let once ← part consuming sub atStart atEnd
    let first ← part consuming sub atStart false
    let inner ← part consuming sub false false
    let last ← part consuming sub false atEnd
    let inners ← build (·.unary .star inner)
    let tail ← build (·.binary .concat inners last)
    let many ← build (·.binary .concat first tail)
    let nonEmpty ← build (·.binary .union once many)
    build (·.binary .union .epsilon nonEmpty)

theorem inContext_eq (e : Expr) (atStart atEnd : Bool) :
    inContext e atStart atEnd = (do
      if ← isAnchored e then
        let removal ← get
        match removal.results[(e, atStart, atEnd)]? with
        | some result => return result
        | none =>
          let result ← layer e atStart atEnd (removal.pool.node e)
          remember e atStart atEnd result
      else return e) := by
  rw [inContext]
  refine bind_congr fun found => ?_
  split
  · refine bind_congr fun removal => ?_
    cases removal.results[(e, atStart, atEnd)]? with
    | some result => rfl
    | none =>
        dsimp only
        split <;> rename_i hn <;> rw [hn] <;> simp only [layer, both, part, bind_assoc] <;> rfl
  · rfl

theorem finds_isAnchored {next : Bool → Step Expr} (h : removal.Sound) (he : removal.pool.Has e)
    (hnext : ∀ found anchored, Sound { removal with anchored := anchored } →
      (found = true ↔ ¬ removal.pool.AnchorFree e) → Finds (next found) { removal with anchored := anchored } L) :
    Finds (isAnchored e >>= next) removal L := by
  obtain ⟨hfound, hmemo⟩ := isAnchored_spec h.anchored he
  have hfinds := hnext _ (removal.pool.isAnchored e removal.anchored).2 ⟨h.pool, hmemo, h.results⟩ hfound
  have hends : Ends Removal.pool (isAnchored e) removal (fun found middle => isAnchored e removal = .ok found middle)
      fun _ => False := ⟨.refl, rfl⟩
  have hrepeats : StepRepeats (isAnchored e) removal := by
    refine ⟨.refl removal.pool, fun later hlater => ?_⟩
    simp only [isAnchored, hlater.isAnchored_eq he]
  constructor
  · apply hends.bind
    intro found middle _ hrun
    cases hrun
    exact hfinds.ends
  · apply hrepeats.bind
    intro found middle hrun
    cases hrun
    exact hfinds.repeats

/-- What a step does with the removal that it looks at does not depend on how far the pool has grown. -/
theorem finds_get {next : Removal → Step Expr} (hnext : Finds (next removal) removal L)
    (hsame : ∀ later, Remembers removal.pool later → next { removal with pool := later } = next removal) :
    Finds (get >>= next) removal L := by
  apply hnext.congr
  intro later hlater
  show next { removal with pool := later } { removal with pool := later } = _
  rw [hsame later hlater]

theorem finds_remember (h : removal.Sound) (he : removal.pool.Has e)
    (hd : removal.pool.Denotes (removal.pool.contextLanguage e atStart atEnd) d) :
    Finds (remember e atStart atEnd d) removal (removal.pool.contextLanguage e atStart atEnd) := by
  refine ⟨⟨.refl, ⟨h.pool, h.anchored, ?_⟩, hd⟩, .refl removal.pool, fun _ _ => rfl⟩
  intro e' atStart' atEnd' d' hd'
  rw [Std.HashMap.getElem?_insert] at hd'
  split at hd'
  · rename_i heq
    cases eq_of_beq heq
    cases hd'
    exact ⟨he, hd⟩
  · exact h.results e' atStart' atEnd' d' hd'

/-! ## Steps in any removal on a grown pool -/

/-- The step finds the language in every sound removal whose pool has grown from the given one. -/
def FindsFrom (pool : Pool) (step : Step Expr) (L : Language Char) : Prop :=
  ∀ ⦃removal : Removal⦄, pool.Grows removal.pool → removal.Sound → Finds step removal L

namespace FindsFrom

variable {first second : Step Expr}

theorem both (op : BinaryOp) (hfirst : FindsFrom pool first L) (hsecond : FindsFrom pool second M) :
    FindsFrom pool (both op first second) (op.language L M) := by
  intro removal hgrows h
  exact finds_both h op (hfirst hgrows h) fun later hlater hsound => hsecond (hgrows.trans hlater) hsound

theorem consuming (h : FindsFrom pool (inContext e atStart atEnd) L) :
    FindsFrom pool (part consuming e atStart atEnd) (nonEmpty L) := by
  intro removal hgrows hsound
  exact (h hgrows hsound).bind hsound fun d middle _ hmiddle _ hd => finds_consuming hmiddle hd

theorem vanishing (h : FindsFrom pool (inContext e atStart atEnd) L) :
    FindsFrom pool (part vanishing e atStart atEnd) (emptyPart L) := by
  intro removal hgrows hsound
  exact (h hgrows hsound).bind hsound fun d middle _ hmiddle _ hd => finds_vanishing hmiddle hd

end FindsFrom

private theorem finds_layer_concat {l r : Expr}
    (hl : ∀ atStart atEnd, FindsFrom pool (inContext l atStart atEnd) (pool.contextLanguage l atStart atEnd))
    (hr : ∀ atStart atEnd, FindsFrom pool (inContext r atStart atEnd) (pool.contextLanguage r atStart atEnd)) :
    FindsFrom pool (layer e atStart atEnd (.binary .concat l r))
      (pool.nodeContextLanguage (.binary .concat l r) atStart atEnd) := by
  have hsplit := (hl atStart false).consuming.both .concat (hr false atEnd).consuming
  have honlyRight := (hl atStart false).vanishing.both .concat (hr atStart atEnd).consuming
  have honlyLeft := (hl atStart atEnd).consuming.both .concat (hr false atEnd).vanishing
  have hneither := (hl atStart atEnd).vanishing.both .concat (hr atStart atEnd).vanishing
  exact hsplit.both .union (honlyRight.both .union (honlyLeft.both .union hneither))

private theorem finds_layer_star {s : Expr}
    (hs : ∀ atStart atEnd, FindsFrom pool (inContext s atStart atEnd) (pool.contextLanguage s atStart atEnd)) :
    FindsFrom pool (layer e atStart atEnd (.unary .star s))
      (pool.nodeContextLanguage (.unary .star s) atStart atEnd) := by
  intro removal hgrows h
  apply ((hs atStart atEnd).consuming hgrows h).bind h
  intro once m₁ hg₁ h₁ _ honce
  apply ((hs atStart false).consuming (hgrows.trans hg₁) h₁).bind h₁
  intro first m₂ hg₂ h₂ k₂ hfirst
  apply ((hs false false).consuming (hgrows.trans (hg₁.trans hg₂)) h₂).bind h₂
  intro inner m₃ hg₃ h₃ k₃ hinner
  apply ((hs false atEnd).consuming (hgrows.trans (hg₁.trans (hg₂.trans hg₃))) h₃).bind h₃
  intro last m₄ _ h₄ k₄ hlast
  apply (finds_unary h₄ .star (k₄ _ _ hinner)).bind h₄
  intro inners m₅ _ h₅ k₅ hinners
  apply (finds_binary h₅ .concat hinners (k₅ _ _ hlast)).bind h₅
  intro tail m₆ _ h₆ k₆ htail
  have hfirst₆ := k₆ _ _ (k₅ _ _ (k₄ _ _ (k₃ _ _ hfirst)))
  apply (finds_binary h₆ .concat hfirst₆ htail).bind h₆
  intro many m₇ _ h₇ k₇ hmany
  have honce₇ := k₇ _ _ (k₆ _ _ (k₅ _ _ (k₄ _ _ (k₃ _ _ (k₂ _ _ honce)))))
  apply (finds_binary h₇ .union honce₇ hmany).bind h₇
  intro nonEmpty m₈ _ h₈ _ hnonEmpty
  exact finds_binary h₈ .union h₈.pool.denotes_epsilon hnonEmpty

/-- An expression without anchors stands for itself in every context. -/
private theorem findsFrom_pure (hpool : pool.Sound) (he : pool.Has e) (hfree : pool.AnchorFree e) :
    FindsFrom pool (pure e) (pool.contextLanguage e atStart atEnd) := by
  intro removal hgrows h
  have hext := hgrows.extends_pool hpool
  rw [contextLanguage_of_anchorFree hfree]
  exact .pure h ⟨hext.has he, (hext.anchorFree_iff he).2 hfree, hext.language_eq he hfree⟩

private theorem finds_layer {n : Node} (hpool : pool.Sound) (he : pool.Has e) (hn : pool.node e = n)
    (hops : ∀ o ∈ n.operands, ∀ atStart atEnd,
      FindsFrom pool (inContext o atStart atEnd) (pool.contextLanguage o atStart atEnd)) :
    FindsFrom pool (layer e atStart atEnd n) (pool.contextLanguage e atStart atEnd) := by
  have hleaf : n.isAnchor = false → n.operands = [] → pool.AnchorFree e := by
    intro hanchor hnil
    rw [anchorFree_iff, hn, hnil]
    simp [hanchor]
  cases n with
  | empty => exact findsFrom_pure hpool he (hleaf rfl rfl)
  | epsilon => exact findsFrom_pure hpool he (hleaf rfl rfl)
  | range interval => exact findsFrom_pure hpool he (hleaf rfl rfl)
  | startAnchor =>
      rw [contextLanguage_of_node hn]
      exact fun removal _ h => .pure h (h.pool.denotes_ofBool atStart)
  | endAnchor =>
      rw [contextLanguage_of_node hn]
      exact fun removal _ h => .pure h (h.pool.denotes_ofBool atEnd)
  | binary op l r =>
      obtain ⟨hl, hr⟩ := Node.forall_operands_binary.1 hops
      rw [contextLanguage_of_node hn]
      cases op with
      | union => exact (hl atStart atEnd).both .union (hr atStart atEnd)
      | intersect => exact (hl atStart atEnd).both .intersect (hr atStart atEnd)
      | concat => exact finds_layer_concat hl hr
  | unary op s =>
      have hs := Node.forall_operands_unary.1 hops
      rw [contextLanguage_of_node hn]
      cases op with
      | star => exact finds_layer_star hs
      | negate =>
          intro removal hgrows h
          exact (hs atStart atEnd hgrows h).bind h fun a middle _ hmiddle _ ha => finds_unary hmiddle .negate ha

/-- In every context the rewriting finds the words that the expression has there. -/
theorem inContext_finds (hpool : pool.Sound) (he : pool.Has e) (atStart atEnd : Bool) :
    FindsFrom pool (inContext e atStart atEnd) (pool.contextLanguage e atStart atEnd) := by
  induction e using operandInduction pool generalizing atStart atEnd with
  | step e ih =>
      intro removal hgrows h
      have hext := hgrows.extends_pool hpool
      have hlanguage := hext.contextLanguage_eq he
      rw [inContext_eq]
      apply finds_isAnchored h (hext.has he)
      intro found anchored h hfound
      by_cases hanchored : found = true
      · rw [if_pos hanchored]
        apply finds_get
        · split
          · rename_i d hd
            rw [← hlanguage]
            exact .pure h (h.results e atStart atEnd d hd).2
          · have hlayer : Finds (layer e atStart atEnd (removal.pool.node e)) { removal with anchored := anchored }
                (pool.contextLanguage e atStart atEnd) := by
              rw [hext.node_eq e he]
              exact finds_layer hpool he rfl (fun o ho => ih o ho (he.operand ho)) hgrows h
            apply hlayer.bind h
            intro d later hlater hsound _ hd
            have heq := (hgrows.trans hlater).extends_pool hpool |>.contextLanguage_eq he
            rw [← heq] at hd ⊢
            exact finds_remember hsound ((hgrows.trans hlater).has hpool he) hd
        · intro later hlater
          simp only [hlater.node_eq e (hext.has he)]
      · have hfree : pool.AnchorFree e := by
          rw [← hext.anchorFree_iff he]
          exact Classical.not_not.1 (mt hfound.2 hanchored)
        rw [if_neg hanchored]
        exact findsFrom_pure hpool he hfree hgrows h

/-! ## The search -/

theorem finds_range (h : removal.Sound) (interval : Interval) :
    Finds (build (·.range interval.low interval.high)) removal {word | ∃ c, c ∈ interval ∧ word = [c]} := by
  have hgrows : removal.pool.Grows (removal.pool.range interval.low interval.high).pool := .range _ _ .refl
  have hsettles := range_settles h.pool interval.low interval.high
  exact ⟨⟨hgrows, h.grow hgrows, hsettles.denotes_range⟩,
    repeats_build hsettles fun _ hlater => hsettles.range_again hlater⟩

theorem finds_all (h : removal.Sound) : Finds (build (·.all)) removal ⊤ := by
  have hall : UnaryOp.negate.language 0 = (⊤ : Language Char) :=
    Language.ext fun word => iff_of_true (Language.notMem_zero word) trivial
  rw [← hall]
  exact finds_unary h .negate h.pool.denotes_empty

/-- One symbol and then anything. -/
theorem finds_padding (h : removal.Sound) (hall : removal.pool.Denotes ⊤ f)
    (hdot : removal.pool.Denotes {word | ∃ c, c ∈ Interval.full ∧ word = [c]} e) :
    Finds (build (·.concat e f)) removal (nonEmpty ⊤) := by
  have hsome : BinaryOp.concat.language {word | ∃ c, c ∈ Interval.full ∧ word = [c]} ⊤ = nonEmpty ⊤ := by
    apply Language.ext
    intro word
    rw [mem_nonEmpty]
    constructor
    · intro hparts
      obtain ⟨u, ⟨c, _, hu⟩, v, _, huv⟩ := hparts
      subst hu
      exact ⟨trivial, huv ▸ List.cons_ne_nil c v⟩
    · intro hparts
      obtain ⟨_, hne⟩ := hparts
      obtain ⟨c, rest, rfl⟩ := List.exists_cons_of_ne_nil hne
      exact ⟨[c], ⟨c, ⟨Symbol.first_le c, Symbol.le_last c⟩, rfl⟩, rest, trivial, rfl⟩
  rw [← hsome]
  exact finds_binary h .concat hdot hall

theorem search_finds (h : removal.Sound) (he : removal.pool.Has e) :
    Finds (search e) removal (removal.pool.occurrences e) := by
  have hpool := h.pool
  apply (finds_all h).bind h
  intro all m₁ hg₁ h₁ _ hall
  have hext := hg₁.extends_pool hpool
  apply finds_isAnchored h₁ (hext.has he)
  intro found anchored h₁ hfound
  by_cases hanchored : found = true
  · rw [if_pos hanchored]
    have hcontext := inContext_finds hpool he
    apply (finds_range h₁ Interval.full).bind h₁
    intro dot m₂ hg₂ h₂ k₂ hdot
    apply (finds_padding h₂ (k₂ _ _ hall) hdot).bind h₂
    intro padding m₃ hg₃ h₃ _ hpadding
    have hg₃' := hg₁.trans (hg₂.trans hg₃)
    apply (hcontext true true hg₃' h₃).bind h₃
    intro whole m₄ hg₄ h₄ k₄ hwhole
    apply (hcontext true false (hg₃'.trans hg₄) h₄).bind h₄
    intro front m₅ hg₅ h₅ k₅ hfront
    apply (hcontext false true (hg₃'.trans (hg₄.trans hg₅)) h₅).bind h₅
    intro back m₆ hg₆ h₆ k₆ hback
    apply (hcontext false false (hg₃'.trans (hg₄.trans (hg₅.trans hg₆))) h₆).bind h₆
    intro middle m₇ _ h₇ k₇ hmiddle
    have hpadding₇ := k₇ _ _ (k₆ _ _ (k₅ _ _ (k₄ _ _ hpadding)))
    have hwhole₇ := k₇ _ _ (k₆ _ _ (k₅ _ _ hwhole))
    have hfront₇ := k₇ _ _ (k₆ _ _ hfront)
    have hback₇ := k₇ _ _ hback
    apply (finds_binary h₇ .concat hfront₇ hpadding₇).bind h₇
    intro front m₈ _ h₈ k₈ hfront
    apply (finds_binary h₈ .concat (k₈ _ _ hpadding₇) (k₈ _ _ hback₇)).bind h₈
    intro back m₉ _ h₉ k₉ hback
    apply (finds_binary h₉ .concat (k₉ _ _ (k₈ _ _ hmiddle)) (k₉ _ _ (k₈ _ _ hpadding₇))).bind h₉
    intro middle m₁₀ _ h₁₀ k₁₀ hmiddle
    apply (finds_binary h₁₀ .concat (k₁₀ _ _ (k₉ _ _ (k₈ _ _ hpadding₇))) hmiddle).bind h₁₀
    intro middle m₁₁ _ h₁₁ k₁₁ hmiddle
    apply (finds_binary h₁₁ .union (k₁₁ _ _ (k₁₀ _ _ hback)) hmiddle).bind h₁₁
    intro rest m₁₂ _ h₁₂ k₁₂ hrest
    apply (finds_binary h₁₂ .union (k₁₂ _ _ (k₁₁ _ _ (k₁₀ _ _ (k₉ _ _ hfront)))) hrest).bind h₁₂
    intro rest m₁₃ _ h₁₃ k₁₃ hrest
    have hwhole₁₃ := k₁₃ _ _ (k₁₂ _ _ (k₁₁ _ _ (k₁₀ _ _ (k₉ _ _ (k₈ _ _ hwhole₇)))))
    rw [occurrences_eq]
    exact finds_binary h₁₃ .union hwhole₁₃ hrest
  · have hfree : removal.pool.AnchorFree e := by
      rw [← hext.anchorFree_iff he]
      exact Classical.not_not.1 (mt hfound.2 hanchored)
    have hdenotes : m₁.pool.Denotes (removal.pool.language e) e :=
      ⟨hext.has he, (hext.anchorFree_iff he).2 hfree, hext.language_eq he hfree⟩
    rw [if_neg hanchored, occurrences_of_anchorFree hfree]
    apply (finds_binary h₁ .concat hdenotes hall).bind h₁
    intro tail m₂ _ h₂ k₂ htail
    exact finds_binary h₂ .concat (k₂ _ _ hall) htail

end Removal

theorem Expr.removeAnchors_of_search {pool : Pool} {e d : Expr} {removal : Removal}
    (hrun : Removal.search e (.start pool) = .ok d removal) : e.removeAnchors pool = .ok d removal.pool := by
  unfold removeAnchors
  rw [EStateM.run, hrun]

/-- Anchors are removed from every expression, and what is left has the inputs in which the expression occurs. -/
theorem Expr.removeAnchors_ends {pool : Pool} {e : Expr} (h : pool.Sound) (he : pool.Has e) :
    Session.Ends e.removeAnchors pool (fun d later => later.Denotes (pool.occurrences e) d) fun _ => False := by
  obtain ⟨d, removal, hrun, hgrows, _, hd⟩ := (Removal.search_finds (Removal.sound_start h) he).ends.returns
  unfold Session.Ends Ends
  rw [removeAnchors_of_search hrun]
  exact ⟨hgrows, hd⟩

/-- The memory of a removal is empty each time it starts, and comes to hold the same. -/
theorem Expr.removeAnchors_repeats {pool : Pool} {e : Expr} (h : pool.Sound) (he : pool.Has e) :
    Session.Repeats e.removeAnchors e.removeAnchors pool := by
  have hfinds := Removal.search_finds (Removal.sound_start h) he
  obtain ⟨d, removal, hrun, hgrows, _⟩ := hfinds.ends.returns
  unfold Session.Repeats Repeats
  rw [removeAnchors_of_search hrun]
  exact ⟨hgrows.remembers h, fun later hlater => removeAnchors_of_search (hfinds.repeats.of_ok hrun later hlater)⟩

end RegexAlgebra
