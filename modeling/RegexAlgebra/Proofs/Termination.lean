import Mathlib.Data.Set.Card
import RegexAlgebra.Proofs.Canonical
import RegexAlgebra.Proofs.Finiteness
import RegexAlgebra.Proofs.Simulation

/-! # Explorations end

The derivatives of an expression without anchors have derivatives of its tree for their trees, in whatever order and on
whatever pools they are taken. So their trees lie in a finite set that depends on the expression alone, and since
handles are determined by their trees, no more handles than that are found. An exploration without a limit on the number
of states therefore ends, after as many steps as there are states.
-/

namespace RegexAlgebra

open Pool

variable {pool start middle later : Pool} {e l r s d : Expr} {c : Char} {op : BinaryOp}

/-! ## Derivatives of trees -/

namespace Pool

/-- In the later pool `d` is a derivative of `e`, and so are their trees. -/
structure Follows (pool : Pool) (e : Expr) (c : Char) (d : Expr) (later : Pool) : Prop
    extends IsDerivative pool e c d later where
  derives : Tree.Derives (pool.tree e) (later.tree d)

theorem Follows.mono (h : Follows pool e c d middle) (hext : Extends middle later) : Follows pool e c d later where
  toIsDerivative := h.toIsDerivative.mono hext
  derives := by
    rw [hext.tree_eq h.has]
    exact h.derives

end Pool

namespace Expr

/-- The derivative of `o` can be taken in any pool that the first one has grown into. -/
private def Followed (pool : Pool) (c : Char) (o : Expr) : Prop :=
  ∀ start, pool.Grows start → Session.Ends (o.derivative c) start (Follows pool o c) fun _ => False

/-- What is left to show of a derivative that is known to be one. -/
private abbrev TreeEnds (pool : Pool) (e : Expr) (c : Char) (n : Node) (start : Pool) : Prop :=
  Session.Ends (e.derivativeOf c n) start (fun d later => Tree.Derives (pool.tree e) (later.tree d)) fun _ => True

private theorem treeEnds_both (h : pool.Sound) (hcanonical : pool.Canonical) (hop : op ≠ .concat)
    (hn : pool.node e = .binary op l r) (hfree : pool.AnchorFree e) (hgrows : pool.Grows start)
    (hl : Followed pool c l) (hr : Followed pool c r) : TreeEnds pool e c (.binary op l r) start := by
  obtain ⟨hfl, hfr⟩ := (anchorFree_of_binary hn).1 hfree
  have hends : Session.Ends (do
      let a ← l.derivative c
      let b ← r.derivative c
      Session.build (·.binary op a b)) start (fun d later => Tree.Derives (pool.tree e) (later.tree d))
        fun _ => True := by
    refine ((hl start hgrows).mono_fails fun _ => False.elim).bind fun a middle hmiddle ha => ?_
    have hgrows' := hgrows.trans hmiddle
    refine ((hr middle hgrows').mono_fails fun _ => False.elim).bind fun b later hlater hb => ?_
    have hgrows'' := hgrows'.trans hlater
    have ha' := ha.mono (hlater.extends_pool (hgrows'.sound h))
    refine (Session.ends_binary (hgrows''.sound h) op ha'.has hb.has).mono fun d last hlast hsettles => ?_
    have hlast' := (hgrows''.trans hlast).canonical h hcanonical
    have hfd := (hsettles.language_binary (ha'.anchorFree hfl) (hb.anchorFree hfr)).1
    rw [tree_of_node hn]
    exact .chain hop ha'.derives hb.derives (hlast'.normal_tree hsettles.answers.has hfd) (hsettles.joins hlast' hop)
  cases op with
  | union => exact hends
  | intersect => exact hends
  | concat => exact absurd rfl hop

private theorem treeEnds_concat (h : pool.Sound) (hcanonical : pool.Canonical) (he : pool.Has e)
    (hn : pool.node e = .binary .concat l r) (hfree : pool.AnchorFree e) (hgrows : pool.Grows start)
    (hl : Followed pool c l) (hr : Followed pool c r) : TreeEnds pool e c (.binary .concat l r) start := by
  obtain ⟨hfl, hfr⟩ := (anchorFree_of_binary hn).1 hfree
  have hhasr := (has_of_binary hn he).2
  rw [TreeEnds, tree_of_node hn]
  refine ((hl start hgrows).mono_fails fun _ => False.elim).bind fun a middle hmiddle ha => ?_
  have hgrows' := hgrows.trans hmiddle
  have hext := hgrows'.extends_pool h
  have hfr' := (hext.anchorFree_iff hhasr).2 hfr
  have hsound := hgrows'.sound h
  refine (Session.ends_binary hsound .concat ha.has (hext.has hhasr)).bind fun first later hlater hfirst => ?_
  have hgrows'' := hgrows'.trans hlater
  have hcanonical' := hgrows''.canonical h hcanonical
  have htree := hfirst.tree_concat hcanonical' (ha.anchorFree hfl) hfr'
  rw [hext.tree_eq hhasr] at htree
  have hff := (hfirst.language_binary (ha.anchorFree hfl) hfr').1
  refine ((Session.ends_ask (·.isNullable l) later).mono_fails fun _ _ => trivial).bind fun nullable _ _ hask => ?_
  obtain ⟨rfl, _⟩ := hask
  cases nullable with
  | false =>
      refine .pure ?_
      rw [htree]
      exact .left ha.derives
  | true =>
      refine ((hr _ hgrows'').mono_fails fun _ => False.elim).bind fun b last hlast hb => ?_
      have hext' := hlast.extends_pool hfirst.sound
      have hhas := hext'.has hfirst.answers.has
      refine (Session.ends_binary (hlast.sound hfirst.sound) .union hhas hb.has).mono fun d last' hlast' hsettles => ?_
      have hcanonical'' := (hgrows''.trans (hlast.trans hlast')).canonical h hcanonical
      have hfd := (hsettles.language_binary ((hext'.anchorFree_iff hfirst.answers.has).2 hff) (hb.anchorFree hfr)).1
      have hjoins := hsettles.joins hcanonical'' (by simp)
      rw [hext'.tree_eq hfirst.answers.has, htree] at hjoins
      exact .both ha.derives hb.derives (hcanonical''.normal_tree hsettles.answers.has hfd) hjoins

private theorem treeEnds_unary {op : UnaryOp} (h : pool.Sound) (hcanonical : pool.Canonical) (he : pool.Has e)
    (hn : pool.node e = .unary op s) (hfree : pool.AnchorFree e) (hgrows : pool.Grows start)
    (hs : Followed pool c s) : TreeEnds pool e c (.unary op s) start := by
  have hfs := (anchorFree_of_unary hn).1 hfree
  rw [TreeEnds]
  cases op with
  | star =>
      refine ((hs start hgrows).mono_fails fun _ => False.elim).bind fun a middle hmiddle ha => ?_
      have hgrows' := hgrows.trans hmiddle
      have hext := hgrows'.extends_pool h
      refine (Session.ends_binary (hgrows'.sound h) .concat ha.has (hext.has he)).mono fun d last hlast hsettles => ?_
      have htree := hsettles.tree_concat ((hgrows'.trans hlast).canonical h hcanonical) (ha.anchorFree hfs)
        ((hext.anchorFree_iff he).2 hfree)
      rw [hext.tree_eq he] at htree
      rw [show last.tree d = _ from htree, tree_of_node hn]
      exact .star ha.derives
  | negate =>
      refine ((hs start hgrows).mono_fails fun _ => False.elim).bind fun a middle hmiddle ha => ?_
      have hgrows' := hgrows.trans hmiddle
      refine (Session.ends_unary (hgrows'.sound h) .negate ha.has).mono fun d last hlast hsettles => ?_
      have htree := hsettles.tree_negate ((hgrows'.trans hlast).canonical h hcanonical)
      rw [show last.tree d = _ from htree, tree_of_node hn]
      exact .negate ha.derives

/-- The derivative of an expression without anchors, taken in any pool that its own has grown into. -/
theorem derivative_follows (h : pool.Sound) (hcanonical : pool.Canonical) (he : pool.Has e)
    (hfree : pool.AnchorFree e) (c : Char) (hgrows : pool.Grows start) :
    Session.Ends (e.derivative c) start (Follows pool e c) fun _ => False := by
  induction e using operandInduction pool generalizing start with
  | step e ih =>
      have hfollowed : ∀ o ∈ (pool.node e).operands, Followed pool c o := fun o ho _ hgrows =>
        ih o ho (he.operand ho) (hfree.operand ho) hgrows
      have hext := hgrows.extends_pool h
      have hleaf := (anchorFree_iff.1 hfree).1
      have hempty : start.tree .empty = .empty := tree_of_node (hgrows.sound h).leaves.1
      have hepsilon : start.tree .epsilon = .epsilon := tree_of_node (hgrows.sound h).leaves.2.1
      suffices htree : TreeEnds pool e c (pool.node e) start by
        have hends := Ends.congr (derivative_run e c start) (by rwa [hext.node_eq e he])
        refine ((derivative_ends h he c hgrows).and hends).mono (fun d later _ hd => ⟨hd.1, hd.2⟩) |>.mono_fails ?_
        exact fun _ hfails => hfails.1 hfree
      rw [TreeEnds]
      have htree := pool.tree_eq e
      cases hn : pool.node e with
      | empty =>
          rw [hn] at htree
          exact .pure (by rw [htree, hempty]; exact .empty)
      | epsilon =>
          rw [hn] at htree
          exact .pure (by rw [htree, hempty]; exact .epsilon)
      | range interval =>
          rw [hn] at htree
          refine .pure ?_
          rw [htree]
          cases interval.contains c with
          | true => exact hepsilon ▸ .inside interval
          | false => exact hempty ▸ .outside interval
      | startAnchor => simp [hn, Node.isAnchor] at hleaf
      | endAnchor => simp [hn, Node.isAnchor] at hleaf
      | binary op l r =>
          rw [hn] at hfollowed
          obtain ⟨hl, hr⟩ := Node.forall_operands_binary.1 hfollowed
          by_cases hop : op = .concat
          · subst hop
            exact treeEnds_concat h hcanonical he hn hfree hgrows hl hr
          · exact treeEnds_both h hcanonical hop hn hfree hgrows hl hr
      | unary op s =>
          rw [hn] at hfollowed
          exact treeEnds_unary h hcanonical he hn hfree hgrows (Node.forall_operands_unary.1 hfollowed)

end Expr

/-! ## Finitely many handles -/

theorem Pool.Reachable.canonical (h : pool.Reachable) : pool.Canonical := by
  induction h with
  | new => exact canonical_new
  | call call h he ih => exact (call.grows_run h.sound he).canonical h.sound ih

/-- What is obtained from `e` on a history that starts with `pool` by taking derivatives, any number of times and by any
symbols. Between two derivatives any calls may be made. -/
inductive Pool.Obtained (pool : Pool) (e : Expr) : Pool → Expr → Prop
  | self : Obtained pool e pool e
  | later {middle later : Pool} {d : Expr} : Obtained pool e middle d → middle.Later later → Obtained pool e later d
  | derivative {middle later : Pool} {d d' : Expr} (c : Char) : Obtained pool e middle d →
      (d.derivative c).outcome middle = (.ok d', later) → Obtained pool e later d'

namespace Tree

/-- The handle has no anchors, and its tree lies in the set. -/
structure Hosts (K : Set Tree) (pool : Pool) (d : Expr) : Prop where
  has : pool.Has d
  anchorFree : pool.AnchorFree d
  tree_mem : pool.tree d ∈ K

namespace Hosts

variable {K : Set Tree} {word : List Char}

theorem mono (h : Hosts K pool d) (hext : Extends pool later) : Hosts K later d where
  has := hext.has h.has
  anchorFree := (hext.anchorFree_iff h.has).2 h.anchorFree
  tree_mem := by
    rw [hext.tree_eq h.has]
    exact h.tree_mem

theorem derivative {d' : Expr} (hK : Full K) (hpool : pool.Sound) (hcanonical : pool.Canonical) (h : Hosts K pool d)
    (hrun : d.derivative c pool = .ok d' later) : pool.Grows later ∧ Hosts K later d' := by
  obtain ⟨hgrows, hd⟩ := (d.derivative_follows hpool hcanonical h.has h.anchorFree c .refl).of_ok hrun
  exact ⟨hgrows, hd.has, hd.anchorFree h.anchorFree, hK.derives_mem h.tree_mem hd.derives⟩

theorem leads (hK : Full K) (hpool : pool.Sound) (hcanonical : pool.Canonical) (h : Hosts K pool e)
    (hleads : pool.Leads e word s) : Hosts K pool s := by
  induction hleads with
  | nil => exact h
  | cons hstep _ ih => exact ih (h.derivative hK hpool hcanonical (hstep pool (.refl pool))).2

theorem obtained (hK : Full K) (hpool : pool.Sound) (hcanonical : pool.Canonical) (h : Hosts K pool e)
    (hobtained : pool.Obtained e later d) : pool.Grows later ∧ Hosts K later d := by
  induction hobtained with
  | self => exact ⟨.refl, h⟩
  | later _ hlater ih =>
      obtain ⟨hgrows, hhosts⟩ := ih
      have hgrows' := hlater.grows (hgrows.sound hpool)
      exact ⟨hgrows.trans hgrows', hhosts.mono (hgrows'.extends_pool (hgrows.sound hpool))⟩
  | derivative c _ hrun ih =>
      obtain ⟨hgrows, hhosts⟩ := ih
      have hnext := hhosts.derivative hK (hgrows.sound hpool) (hgrows.canonical hpool hcanonical)
        (Session.ok_of_outcome hrun)
      exact ⟨hgrows.trans hnext.1, hnext.2⟩

/-- There are no more handles than trees. -/
theorem card_le (hK : K.Finite) (hcanonical : pool.Canonical) {found : Finset Expr}
    (h : ∀ d ∈ found, Hosts K pool d) : found.card ≤ K.ncard := by
  have hinjective : Set.InjOn pool.tree found := fun d hd d' hd' htree =>
    hcanonical.tree_injective (h d hd).has (h d' hd').has htree
  rw [← Set.ncard_coe_finset]
  exact Set.ncard_le_ncard_of_injOn pool.tree (fun d hd => (h d hd).tree_mem) hinjective hK

theorem length_le (hK : K.Finite) (hcanonical : pool.Canonical) {states : List Expr} (hnodup : states.Nodup)
    (h : ∀ s ∈ states, Hosts K pool s) : states.length ≤ K.ncard := by
  rw [← List.toFinset_card_of_nodup hnodup]
  exact card_le hK hcanonical fun d hd => h d (List.mem_toFinset.1 hd)

end Hosts

end Tree

/-! ## Turns of an exploration -/

theorem Pool.classes_of_anchorFree (hfree : pool.AnchorFree e) : ∃ cells, pool.classes e = .ok cells := by
  induction e using operandInduction pool with
  | step e ih =>
      have hleaf := (anchorFree_iff.1 hfree).1
      have hsub : ∀ o ∈ (pool.node e).operands, ∃ cells, pool.classes o = .ok cells := fun o ho =>
        ih o ho (hfree.operand ho)
      rw [classes_eq]
      cases hn : pool.node e with
      | startAnchor => simp [hn, Node.isAnchor] at hleaf
      | endAnchor => simp [hn, Node.isAnchor] at hleaf
      | unary op s =>
          rw [hn] at hsub
          exact Node.forall_operands_unary.1 hsub
      | binary op l r =>
          rw [hn] at hsub
          obtain ⟨⟨ls, hls⟩, rs, hrs⟩ := Node.forall_operands_binary.1 hsub
          have hboth : pool.bothClasses l r = .ok (Partition.refine ls rs) :=
            bothClasses_eq_ok_iff.2 ⟨ls, rs, hls, hrs, rfl⟩
          cases op with
          | union => exact ⟨_, hboth⟩
          | intersect => exact ⟨_, hboth⟩
          | concat =>
              obtain ⟨b, hb, _⟩ := isNullable_of_anchorFree ((anchorFree_of_binary hn).1 hfree).1
              rw [nodeClasses, hb]
              cases b with
              | true => exact ⟨_, hboth⟩
              | false => exact ⟨ls, hls⟩
      | _ => exact ⟨_, rfl⟩

namespace Exploration

variable {states states' : List Expr} {rows : List Row} {path : Expr → List Char} {K : Set Tree} {limit? : Option Nat}
  {cells : List Interval} {edges : List Edge}

theorem expand_returns (h : pool.Sound) (hs : pool.Has s) (hfree : pool.AnchorFree s) (cells : List Interval) :
    Session.Ends (expand none s cells states) pool (fun result _ => states <+: result.2) fun _ => False := by
  induction cells generalizing pool states with
  | nil => exact .pure List.prefix_rfl
  | cons cell cells ih =>
      refine ((s.derivative_ends h hs cell.low .refl).mono_fails fun _ hnot => hnot hfree).bind
        fun t middle hmiddle _ => ?_
      have hext := hmiddle.extends_pool h
      have hdiscover : ∃ states', discover none states t = .ok states' ∧ states <+: states' := by
        unfold discover
        split
        · exact ⟨_, rfl, List.prefix_rfl⟩
        · exact ⟨_, rfl, List.prefix_append states [t]⟩
      obtain ⟨states', hstates', hbefore⟩ := hdiscover
      refine ((Session.ends_ask (fun _ => discover none states t) middle).mono_fails fun error herror => ?_).bind
        fun states₁ pool₁ _ hask => ?_
      · rw [hstates'] at herror
        cases herror
      · obtain ⟨rfl, heq⟩ := hask
        rw [hstates'] at heq
        cases heq
        exact (ih (hmiddle.sound h) (hext.has hs) ((hext.anchorFree_iff hs).2 hfree)).bind fun _ _ _ hrest =>
          .pure (hbefore.trans hrest)

/-- Once its state is expanded, a turn has the row of the state. -/
theorem Explored.turn (hpool : pool.Sound) (h : Explored pool e path states rows)
    (hs : states[rows.length]? = some s) (hfree : pool.AnchorFree s) (hclasses : pool.classes s = .ok cells)
    (hrun : expand limit? s cells states pool = .ok (edges, states') later) :
    pool.Grows later ∧ ∃ isFinal path', later.isNullable s = .ok isFinal ∧
      Explored later e path' states' (rows ++ [⟨s, isFinal, edges⟩]) := by
  have hmem : s ∈ states := List.mem_of_getElem? hs
  obtain ⟨hgrows, hedges, path', hdiscovered, hcontinues, hlength⟩ :=
    (expand_ends hpool h.toDiscovered hmem (h.waiting s hs)).of_ok hrun
  have hext := hgrows.extends_pool hpool
  obtain ⟨isFinal, hnullable, _⟩ := isNullable_of_anchorFree ((hext.anchorFree_iff (h.has s hmem)).2 hfree)
  exact ⟨hgrows, isFinal, path', hnullable,
    h.add hs (hgrows.remembers hpool) hclasses hedges hdiscovered hcontinues hlength hnullable⟩

/-- Without a limit and without anchors, the next state gets its row in one turn, whatever the fuel. -/
theorem exploreFrom_turn (hpool : pool.Sound) (h : Explored pool e path states rows)
    (hs : states[rows.length]? = some s) (hfree : pool.AnchorFree s) :
    ∃ path' states' row later, pool.Grows later ∧ Explored later e path' states' (rows ++ [row]) ∧
      ∀ fuel, exploreFrom none (fuel + 1) states rows pool = exploreFrom none fuel states' (rows ++ [row]) later := by
  obtain ⟨cells, hclasses⟩ := classes_of_anchorFree hfree
  obtain ⟨⟨edges, states'⟩, later, hrun, _⟩ :=
    (expand_returns hpool (h.has s (List.mem_of_getElem? hs)) hfree cells).returns
  obtain ⟨hgrows, isFinal, path', hnullable, hexplored⟩ := h.turn hpool hs hfree hclasses hrun
  refine ⟨path', states', ⟨s, isFinal, edges⟩, later, hgrows, hexplored, fun fuel => ?_⟩
  rw [exploreFrom, hs]
  simp only [bind, EStateM.bind, Session.ask, hclasses, hrun, hnullable]

/-- An exploration takes one turn for each state that is left to expand, and a last one. -/
theorem exploreFrom_returns (hK : Tree.Full K) (hfinite : K.Finite) (hpool : pool.Sound)
    (hcanonical : pool.Canonical) (he : Tree.Hosts K pool e) (h : Explored pool e path states rows) :
    ∃ path' states' more built, pool.Grows built ∧ Explored built e path' states' (rows ++ more) ∧
      states'.length ≤ (rows ++ more).length ∧
      (∀ fuel, more.length < fuel → exploreFrom none fuel states rows pool = .ok (rows ++ more) built) ∧
      ∀ fuel ≤ more.length, ∃ last, exploreFrom none fuel states rows pool = .error .handlesExhausted last := by
  induction hleft : K.ncard - rows.length using Nat.strongRecOn generalizing pool path states rows with
  | ind left ih =>
      have hhosts : ∀ s ∈ states, Tree.Hosts K pool s := fun s hs => he.leads hK hpool hcanonical (h.leads s hs)
      cases hs : states[rows.length]? with
      | none =>
          refine ⟨path, states, [], pool, .refl, by simpa using h, by simpa using hs, fun fuel hfuel => ?_,
            fun fuel hfuel => ⟨pool, ?_⟩⟩
          · obtain ⟨fuel, rfl⟩ := Nat.exists_eq_succ_of_ne_zero (Nat.ne_of_gt hfuel)
            rw [exploreFrom, hs, List.append_nil]
            rfl
          · rw [Nat.le_zero.1 hfuel]
            rfl
      | some s =>
          have hlength := Tree.Hosts.length_le hfinite hcanonical h.nodup hhosts
          have hlt : rows.length < states.length := (List.getElem?_eq_some_iff.1 hs).1
          obtain ⟨path₁, states₁, row, middle, hgrows, hexplored, hturn⟩ :=
            exploreFrom_turn hpool h hs (hhosts s (List.mem_of_getElem? hs)).anchorFree
          have hleft' : K.ncard - (rows ++ [row]).length < left := by
            rw [List.length_append, List.length_singleton]
            omega
          obtain ⟨path', states', more, built, hgrows', hexplored', hle, hok, herror⟩ :=
            ih _ hleft' (hgrows.sound hpool) (hgrows.canonical hpool hcanonical)
              (he.mono (hgrows.extends_pool hpool)) hexplored rfl
          rw [List.append_assoc] at hexplored' hle
          refine ⟨path', states', row :: more, built, hgrows.trans hgrows', hexplored', hle, fun fuel hfuel => ?_,
            fun fuel hfuel => ?_⟩
          · rw [List.length_cons] at hfuel
            obtain ⟨fuel, rfl⟩ := Nat.exists_eq_succ_of_ne_zero (Nat.ne_zero_of_lt hfuel)
            rw [hturn, hok fuel (by omega), List.append_assoc]
            rfl
          · rw [List.length_cons] at hfuel
            cases fuel with
            | zero => exact ⟨pool, rfl⟩
            | succ fuel =>
                rw [hturn]
                exact herror fuel (by omega)

/-- From the expression alone, an exploration expands every state that it finds. -/
theorem exists_exploration (h : pool.Sound) (hcanonical : pool.Canonical) (he : pool.Has e)
    (hfree : pool.AnchorFree e) :
    ∃ path rows built, pool.Grows built ∧ Explored built e path (rows.map (·.state)) rows ∧
      (∀ fuel, rows.length < fuel → exploreFrom none fuel [e] [] pool = .ok rows built) ∧
      ∀ fuel ≤ rows.length, ∃ last, exploreFrom none fuel [e] [] pool = .error .handlesExhausted last := by
  obtain ⟨K, hfinite, hK, hmem⟩ := (hcanonical.normal_tree he hfree).exists_full
  obtain ⟨path, states, rows, built, hgrows, hexplored, hle, hok, herror⟩ :=
    exploreFrom_returns hK hfinite h hcanonical ⟨he, hfree, hmem⟩ (explored_start he)
  rw [List.nil_append] at hexplored hle hok
  have hstates : rows.map (·.state) = states := by
    rw [hexplored.states_eq, List.take_of_length_le hle]
  subst hstates
  exact ⟨path, rows, built, hgrows, hexplored, hok, herror⟩

end Exploration

/-- The rows are those of the automaton of `e`. Their states are the residuals of `e`, each once, and without a limit on
their number the automaton is built just if there are handles for them. -/
structure Pool.Unfolds (pool : Pool) (e : Expr) (rows : List Row) (built : Pool) : Prop where
  nodup : (rows.map (·.state)).Nodup
  mem_states : ∀ s, s ∈ rows.map (·.state) ↔ ∃ word, (e.residual word).outcome built = (.ok s, built)
  exists_residual : ∀ word, ∃ s, (e.residual word).outcome built = (.ok s, built)
  automaton_of_lt : rows.length < handleBound → ∀ settings : Settings, settings.limit? = none →
    (e.automaton settings).outcome pool = (.ok ⟨e, rows, settings.strategyOrDefault⟩, built)
  automaton_of_le : handleBound ≤ rows.length → ∀ settings : Settings, settings.limit? = none →
    ∃ last, (e.automaton settings).outcome pool = (.error .handlesExhausted, last)

namespace Expr

theorem unfolds_of_exploration {built : Pool} {path : Expr → List Char} {rows : List Row} (h : built.Sound)
    (hexplored : Exploration.Explored built e path (rows.map (·.state)) rows)
    (hok : ∀ fuel, rows.length < fuel → Exploration.exploreFrom none fuel [e] [] pool = .ok rows built)
    (herror : ∀ fuel ≤ rows.length,
      ∃ last, Exploration.exploreFrom none fuel [e] [] pool = .error .handlesExhausted last) :
    pool.Unfolds e rows built := by
  have hexplores : (Automaton.mk e rows .atomicSweep).Explores e path built :=
    ⟨rfl, hexplored.toDiscovered, hexplored.rows_right⟩
  have hsimulates := hexplores.simulates h
  refine ⟨hsimulates.nodup, hsimulates.mem_states, fun word => ?_, fun hlt settings hlimit => ?_,
    fun hle settings hlimit => ?_⟩
  · obtain ⟨s, _, hrun⟩ := hsimulates.run_eq word
    exact ⟨s, hrun⟩
  · exact Session.outcome_of_ok (by rw [automaton_run hlimit, hok handleBound hlt])
  · obtain ⟨last, hrun⟩ := herror handleBound hle
    exact ⟨last, Session.outcome_of_error (by rw [automaton_run hlimit, hrun])⟩

theorem exists_unfolds (h : pool.Sound) (hcanonical : pool.Canonical) (he : pool.Has e) (hfree : pool.AnchorFree e) :
    ∃ rows built, pool.Unfolds e rows built := by
  obtain ⟨_, rows, built, hgrows, hexplored, hok, herror⟩ := Exploration.exists_exploration h hcanonical he hfree
  exact ⟨rows, built, unfolds_of_exploration (hgrows.sound h) hexplored hok herror⟩

/-- On every pool with a history, an expression without anchors has finitely many derivatives: there is a bound on the
handles that are obtained from it on any further history. An exploration without a limit therefore ends. It finds all
residuals of the expression, after as many turns as there are states and one that finds nothing left to expand, and the
automaton is built if there are handles for so many states. -/
theorem exploration_terminates (h : pool.Reachable) (he : pool.Has e) (hfree : pool.AnchorFree e) :
    (∃ bound, ∀ later (found : Finset Expr), (∀ d ∈ found, pool.Obtained e later d) → found.card ≤ bound) ∧
    ∃ rows built,
      (∀ fuel, rows.length < fuel → (Exploration.exploreFrom none fuel [e] []).outcome pool = (.ok rows, built)) ∧
      (∀ fuel ≤ rows.length,
        ∃ last, (Exploration.exploreFrom none fuel [e] []).outcome pool = (.error .handlesExhausted, last)) ∧
      (∀ word, ∃ d ∈ rows.map (·.state), (e.residual word).outcome built = (.ok d, built)) ∧
      ∀ settings : Settings, settings.limit? = none →
        (rows.length < handleBound →
          (e.automaton settings).outcome pool = (.ok ⟨e, rows, settings.strategyOrDefault⟩, built)) ∧
        (handleBound ≤ rows.length →
          ∃ last, (e.automaton settings).outcome pool = (.error .handlesExhausted, last)) := by
  have hcanonical := h.canonical
  constructor
  · obtain ⟨K, hfinite, hK, hmem⟩ := (hcanonical.normal_tree he hfree).exists_full
    have hhosts : Tree.Hosts K pool e := ⟨he, hfree, hmem⟩
    refine ⟨K.ncard, fun later found hfound => ?_⟩
    rcases found.eq_empty_or_nonempty with rfl | ⟨d, hd⟩
    · exact Nat.zero_le _
    · have hgrows := (hhosts.obtained hK h.sound hcanonical (hfound d hd)).1
      exact Tree.Hosts.card_le hfinite (hgrows.canonical h.sound hcanonical) fun d hd =>
        (hhosts.obtained hK h.sound hcanonical (hfound d hd)).2
  · obtain ⟨path, rows, built, hgrows, hexplored, hok, herror⟩ :=
      Exploration.exists_exploration h.sound hcanonical he hfree
    have hunfolds := unfolds_of_exploration (hgrows.sound h.sound) hexplored hok herror
    refine ⟨rows, built, fun fuel hfuel => Session.outcome_of_ok (hok fuel hfuel), fun fuel hfuel => ?_, fun word => ?_,
      fun settings hlimit => ⟨fun hlt => hunfolds.automaton_of_lt hlt settings hlimit,
        fun hle => hunfolds.automaton_of_le hle settings hlimit⟩⟩
    · obtain ⟨last, hrun⟩ := herror fuel hfuel
      exact ⟨last, Session.outcome_of_error hrun⟩
    · obtain ⟨d, hrun⟩ := hunfolds.exists_residual word
      exact ⟨d, (hunfolds.mem_states d).2 ⟨word, hrun⟩, hrun⟩

/-- The automaton of one lower case letter has three states, and takes a turn more to build. -/
theorem exploration_of_lowercase :
    (∀ fuel, 3 < fuel → (Exploration.exploreFrom none fuel [lowercase.expr] []).outcome lowercase.pool =
      (.ok lowercaseAutomaton.rows, lowercase.pool)) ∧
    ∀ fuel ≤ 3, ∃ last, (Exploration.exploreFrom none fuel [lowercase.expr] []).outcome lowercase.pool =
      (.error .handlesExhausted, last) := by
  obtain ⟨_, rows, built, hok, herror, _⟩ := exploration_terminates reachable_lowercase has_lowercase
    anchorFree_lowercase
  have hrun := hok (rows.length + 4) (by omega)
  rw [Session.outcome_of_ok (exploreFrom_lowercase rows.length)] at hrun
  cases hrun
  exact ⟨hok, herror⟩

end Expr

end RegexAlgebra
