import Mathlib.Data.Char
import RegexAlgebra.Automaton.Lockstep
import RegexAlgebra.Proofs.Moves

/-! # Steps in lockstep

Both strategies take the step that is told by the single symbols: a symbol moves the single state and each tracked one,
and gives one pair. The cross product narrows the alphabet to the symbols that take the same edges. The sweep has the
edges that hold a cut among its active ones when it gets there, and each symbol takes the same edges as the last cut
before it.
-/

namespace RegexAlgebra

open Pool

namespace Automaton

variable {a b : Automaton} {s t single : Expr} {c d : Char} {edges : List Edge}

/-- The pair that a symbol leads to. -/
def nextPair (a b : Automaton) (single : Expr) (tracked : List Expr) (c : Char) : Pair :=
  ⟨b.next single c, .ofList (tracked.map (a.next · c))⟩

/-! ## The cross product -/

variable {combinations : List (Interval × StateSet)} {targets : StateSet} {tracked : List Expr}

private theorem mem_narrow {x : Interval × StateSet} :
    x ∈ narrow combinations edges ↔ ∃ y ∈ combinations, ∃ edge ∈ edges,
      (y.1 ∩ edge.interval).isEmpty = false ∧ x = (y.1 ∩ edge.interval, y.2.insert edge.target) := by
  simp only [narrow, List.mem_flatMap, List.mem_filterMap]
  refine exists_congr fun y => and_congr_right fun _ => exists_congr fun edge => and_congr_right fun _ => ?_
  cases (y.1 ∩ edge.interval).isEmpty <;> simp [eq_comm]

/-- Narrowing by the edges of a state adds the targets that the symbols have from there. -/
private theorem exists_mem_narrow (h : a.Leaves t edges) :
    (∃ x ∈ narrow combinations edges, c ∈ x.1 ∧ x.2 = targets) ↔
      ∃ y ∈ combinations, c ∈ y.1 ∧ y.2.insert (a.next t c) = targets := by
  constructor
  · intro hparts
    obtain ⟨x, hx, hc, rfl⟩ := hparts
    obtain ⟨y, hy, edge, hedge, _, rfl⟩ := mem_narrow.1 hx
    obtain ⟨hcy, hcedge⟩ := Interval.mem_inter.1 hc
    exact ⟨y, hy, hcy, by rw [h.target_eq hedge hcedge]⟩
  · intro hparts
    obtain ⟨y, hy, hc, rfl⟩ := hparts
    obtain ⟨edge, hedge, hcedge, htarget⟩ := h.exists_edge c
    have hcommon : c ∈ y.1 ∩ edge.interval := Interval.mem_inter.2 ⟨hc, hcedge⟩
    have hmem := mem_narrow.2 ⟨y, hy, edge, hedge, Partition.isEmpty_inter_eq_false hc hcedge, rfl⟩
    exact ⟨_, hmem, hcommon, by rw [htarget]⟩

/-- What narrowing by the edges of some states leaves: each symbol of a combination is in one of those that are left,
together with its targets. -/
private structure Narrowed (a : Automaton) (tracked : List Expr) (combinations result : List (Interval × StateSet)) :
    Prop where
  nonempty : ∀ x ∈ result, x.1.isEmpty = false
  exists_mem : ∀ c targets, (∃ x ∈ result, c ∈ x.1 ∧ x.2 = targets) ↔
    ∃ y ∈ combinations, c ∈ y.1 ∧ (tracked.map (a.next · c)).foldl (fun targets t => targets.insert t) y.2 = targets

private theorem narrow_ne_nil (h : a.Leaves t edges) (hne : combinations ≠ [])
    (hnonempty : ∀ x ∈ combinations, x.1.isEmpty = false) : narrow combinations edges ≠ [] := by
  obtain ⟨y, hy⟩ := List.exists_mem_of_ne_nil combinations hne
  obtain ⟨x, hx, _⟩ := (exists_mem_narrow h).2 ⟨y, hy, Interval.low_mem (hnonempty y hy), rfl⟩
  exact List.ne_nil_of_mem hx

private theorem narrowAll_cons (he : a.edges t = .ok edges) (hne : combinations ≠ []) :
    a.narrowAll (t :: tracked) combinations = a.narrowAll tracked (narrow combinations edges) := by
  simp only [narrowAll, List.isEmpty_iff, hne, if_false, he]
  rfl

private theorem narrowAll_narrowed (ha : a.IsComplete) (htracked : ∀ t ∈ tracked, t ∈ a.states)
    (hne : combinations ≠ []) (hnonempty : ∀ x ∈ combinations, x.1.isEmpty = false) :
    ∃ result, a.narrowAll tracked combinations = .ok result ∧ Narrowed a tracked combinations result := by
  induction tracked generalizing combinations with
  | nil => exact ⟨combinations, rfl, hnonempty, fun c targets => by simp⟩
  | cons t tracked ih =>
      obtain ⟨ht, hrest⟩ := List.forall_mem_cons.1 htracked
      obtain ⟨edges, hleaves⟩ := ha.leaves t ht
      have hnonempty' : ∀ x ∈ narrow combinations edges, x.1.isEmpty = false := by
        intro x hx
        obtain ⟨y, _, edge, _, hempty, rfl⟩ := mem_narrow.1 hx
        exact hempty
      obtain ⟨result, hrun, hresult⟩ := ih hrest (narrow_ne_nil hleaves hne hnonempty) hnonempty'
      refine ⟨result, (narrowAll_cons hleaves.edges_eq hne).trans hrun, hresult.nonempty, fun c targets => ?_⟩
      rw [hresult.exists_mem, List.map_cons]
      simp only [List.foldl_cons]
      constructor
      · intro hparts
        obtain ⟨x, hx, hc, rfl⟩ := hparts
        obtain ⟨y, hy, hcy, htargets⟩ := (exists_mem_narrow hleaves).1 ⟨x, hx, hc, rfl⟩
        exact ⟨y, hy, hcy, by rw [htargets]⟩
      · intro hparts
        obtain ⟨y, hy, hcy, rfl⟩ := hparts
        obtain ⟨x, hx, hc, htargets⟩ := (exists_mem_narrow hleaves).2 ⟨y, hy, hcy, rfl⟩
        exact ⟨x, hx, hc, by rw [htargets]⟩

private theorem narrowAll_error (ha : a.IsComplete) (hfind : tracked.find? (· ∉ a.states) = some t)
    (hne : combinations ≠ []) (hnonempty : ∀ x ∈ combinations, x.1.isEmpty = false) :
    a.narrowAll tracked combinations = .error (.notAState t) := by
  induction tracked generalizing combinations with
  | nil => cases hfind
  | cons u tracked ih =>
      by_cases hu : u ∈ a.states
      · obtain ⟨edges, hleaves⟩ := ha.leaves u hu
        rw [narrowAll_cons hleaves.edges_eq hne]
        refine ih (by simpa [hu] using hfind) (narrow_ne_nil hleaves hne hnonempty) fun x hx => ?_
        obtain ⟨y, _, edge, _, hempty, rfl⟩ := mem_narrow.1 hx
        exact hempty
      · have heq : u = t := by simpa [hu] using hfind
        subst heq
        simp only [narrowAll, List.isEmpty_iff, hne, if_false, edges_of_not_mem hu]
        rfl

/-- The pairs are those that the symbols lead to. -/
def PairsOf (a b : Automaton) (single : Expr) (tracked : StateSet) (pairs : SortedSet Pair) : Prop :=
  ∀ p, p ∈ pairs ↔ ∃ c, nextPair a b single tracked.toList c = p

private theorem nonempty_edge (h : b.Leaves single edges) {edge : Edge} (hedge : edge ∈ edges) :
    ∀ x ∈ [(edge.interval, (∅ : StateSet))], x.1.isEmpty = false := by
  intro x hx
  rw [List.mem_singleton.1 hx, ← Bool.not_eq_true, Interval.isEmpty_iff]
  exact Char.not_lt.2 (h.low_le_high hedge)

theorem crossPairs_spec {tracked : StateSet} (ha : a.IsComplete) (hb : b.IsComplete) (hsingle : single ∈ b.states)
    (htracked : ∀ t ∈ tracked, t ∈ a.states) :
    ∃ pairs, a.crossPairs b single tracked = .ok pairs ∧ PairsOf a b single tracked pairs := by
  obtain ⟨edges, hleaves⟩ := hb.leaves single hsingle
  have hnarrow : ∀ edge ∈ edges, ∃ result, a.narrowAll tracked.toList [(edge.interval, ∅)] = .ok result ∧
      Narrowed a tracked.toList [(edge.interval, ∅)] result := fun edge hedge =>
    narrowAll_narrowed ha htracked (by simp) (nonempty_edge hleaves hedge)
  choose! result hrun hresult using hnarrow
  refine ⟨.ofList (edges.map fun edge => (result edge).map fun x => Pair.mk edge.target x.2).flatten, ?_, fun p => ?_⟩
  · simp only [crossPairs, hleaves.edges_eq, bind, Except.bind]
    rw [mapM_of_ok (g := fun edge => (result edge).map fun x => Pair.mk edge.target x.2) fun edge hedge => ?_]
    · rfl
    · rw [hrun edge hedge]
      rfl
  · simp only [SortedSet.mem_ofList, List.mem_flatten, List.mem_map, exists_exists_and_eq_and]
    constructor
    · intro hparts
      obtain ⟨edge, hedge, x, hx, rfl⟩ := hparts
      have hc := Interval.low_mem ((hresult edge hedge).nonempty x hx)
      obtain ⟨y, hy, hcy, htargets⟩ := ((hresult edge hedge).exists_mem _ _).1 ⟨x, hx, hc, rfl⟩
      rw [List.mem_singleton.1 hy] at hcy htargets
      exact ⟨x.1.low, by rw [nextPair, ← hleaves.target_eq hedge hcy, SortedSet.ofList, htargets]⟩
    · intro hparts
      obtain ⟨c, rfl⟩ := hparts
      obtain ⟨edge, hedge, hc, htarget⟩ := hleaves.exists_edge c
      obtain ⟨x, hx, _, htargets⟩ := ((hresult edge hedge).exists_mem c _).2 ⟨_, List.mem_singleton_self _, hc, rfl⟩
      exact ⟨edge, hedge, x, hx, by rw [htargets, htarget]; rfl⟩

theorem crossPairs_of_not_mem {tracked : StateSet} (hsingle : single ∉ b.states) :
    a.crossPairs b single tracked = .error (.notAState single) := by
  rw [crossPairs, edges_of_not_mem hsingle]
  rfl

theorem crossPairs_error {tracked : StateSet} (ha : a.IsComplete) (hb : b.IsComplete) (hsingle : single ∈ b.states)
    (hfind : tracked.toList.find? (· ∉ a.states) = some t) :
    a.crossPairs b single tracked = .error (.notAState t) := by
  obtain ⟨edges, hleaves⟩ := hb.leaves single hsingle
  cases edges with
  | nil => exact hleaves.partition.elim
  | cons edge edges =>
      have hnarrow := narrowAll_error ha hfind (by simp) (nonempty_edge hleaves List.mem_cons_self)
      simp only [crossPairs, hleaves.edges_eq, bind, Except.bind, List.mapM_cons, hnarrow]

/-! ## The edges that hold a symbol -/

/-- Of the atoms that hold a symbol one belongs to the single state, and those that belong to the tracked states lead
where the symbol leads. -/
private structure Covers (a b : Automaton) (single : Expr) (tracked : List Expr) (atoms : List Atom) : Prop where
  single_eq : ∀ c, ∃ i, (atoms.filter (·.interval.contains c)).filter (·.isSingle) = [⟨i, true, b.next single c⟩]
  tracked_eq : ∀ c, ((atoms.filter (·.interval.contains c)).filter (!·.isSingle)).map (·.target) =
    tracked.map (a.next · c)
  low_le_high : ∀ x ∈ atoms, x.interval.low ≤ x.interval.high
  first_mem : ∃ x ∈ atoms, x.interval.low = Symbol.first

private theorem filter_flatten {edgesOf : Expr → List Edge} (h : ∀ t ∈ tracked, a.Leaves t (edgesOf t)) (c : Char) :
    ((tracked.map edgesOf).flatten.filter (·.interval.contains c)).map (·.target) = tracked.map (a.next · c) := by
  induction tracked with
  | nil => rfl
  | cons t tracked ih =>
      obtain ⟨ht, hrest⟩ := List.forall_mem_cons.1 h
      obtain ⟨i, hfilter, _⟩ := ht.filter_eq c
      simp [List.filter_append, hfilter, ← ih hrest]

theorem Leaves.exists_first (h : a.Leaves s edges) : ∃ edge ∈ edges, edge.interval.low = Symbol.first := by
  cases edges with
  | nil => exact h.partition.elim
  | cons edge edges => exact ⟨edge, List.mem_cons_self, (Partition.tilesFrom_cons.1 h.partition).1⟩

private theorem atoms_cover {tracked : StateSet} (ha : a.IsComplete) (hb : b.IsComplete) (hsingle : single ∈ b.states)
    (htracked : ∀ t ∈ tracked, t ∈ a.states) :
    ∃ atoms, a.atoms b single tracked = .ok atoms ∧ Covers a b single tracked.toList atoms := by
  obtain ⟨edges, hleaves⟩ := hb.leaves single hsingle
  have hstates := ha.leaves
  choose! edgesOf hedges using hstates
  have hall : ∀ t ∈ tracked.toList, a.Leaves t (edgesOf t) := fun t ht => hedges t (htracked t ht)
  have hmap : tracked.toList.mapM a.edges = .ok (tracked.toList.map edgesOf) :=
    mapM_of_ok fun t ht => (hall t ht).edges_eq
  refine ⟨edges.map (fun edge => ⟨edge.interval, true, edge.target⟩) ++
    (tracked.toList.map edgesOf).flatten.map (fun edge => ⟨edge.interval, false, edge.target⟩), ?_, ?_, ?_, ?_, ?_⟩
  · simp only [atoms, hleaves.edges_eq, bind, Except.bind, hmap]
    rfl
  · intro c
    obtain ⟨i, hfilter, _⟩ := hleaves.filter_eq c
    exact ⟨i, by simp [List.filter_append, List.filter_map, Function.comp_def, hfilter]⟩
  · intro c
    rw [← filter_flatten hall c]
    simp [List.filter_append, List.filter_map, Function.comp_def]
  · intro x hx
    rcases List.mem_append.1 hx with hx | hx
    · obtain ⟨edge, hedge, rfl⟩ := List.mem_map.1 hx
      exact hleaves.low_le_high hedge
    · obtain ⟨edge, hedge, rfl⟩ := List.mem_map.1 hx
      obtain ⟨l, hl, hedge⟩ := List.mem_flatten.1 hedge
      obtain ⟨t, ht, rfl⟩ := List.mem_map.1 hl
      exact (hall t ht).low_le_high hedge
  · obtain ⟨edge, hedge, hlow⟩ := hleaves.exists_first
    exact ⟨_, List.mem_append_left _ (List.mem_map_of_mem hedge), hlow⟩

/-- It does not matter in which order the atoms that hold a symbol are active. -/
private theorem Covers.pairAt_eq {atoms active : List Atom} (h : Covers a b single tracked atoms) (start : Char)
    (hactive : active.Perm (atoms.filter (·.interval.contains start))) :
    pairAt single start active = .ok (nextPair a b single tracked start) := by
  obtain ⟨i, hsingle⟩ := h.single_eq start
  have hfilter : active.filter (·.isSingle) = [⟨i, true, b.next single start⟩] :=
    List.perm_singleton.1 (hsingle ▸ hactive.filter _)
  have htargets : SortedSet.ofList ((active.filter (!·.isSingle)).map (·.target)) =
      SortedSet.ofList (tracked.map (a.next · start)) := by
    refine SortedSet.ext fun t => ?_
    rw [SortedSet.mem_ofList, SortedSet.mem_ofList, ← h.tracked_eq start]
    exact ((hactive.filter _).map _).mem_iff
  simp only [pairAt, hfilter, htargets, nextPair]

/-- Symbols that the same atoms hold lead to the same pair. -/
private theorem Covers.nextPair_congr {atoms : List Atom} (h : Covers a b single tracked atoms)
    (hcd : ∀ x ∈ atoms, x.interval.contains c = x.interval.contains d) :
    nextPair a b single tracked c = nextPair a b single tracked d := by
  have hfilter : atoms.filter (·.interval.contains c) = atoms.filter (·.interval.contains d) := List.filter_congr hcd
  obtain ⟨i, hc⟩ := h.single_eq c
  obtain ⟨j, hd⟩ := h.single_eq d
  rw [hfilter, hd] at hc
  simp only [List.cons.injEq, Atom.mk.injEq, and_true, true_and] at hc
  rw [nextPair, nextPair, ← hc.2, ← h.tracked_eq, ← h.tracked_eq, hfilter]

/-! ## The sweep -/

variable {atoms waiting active : List Atom} {cs : List Char} {start : Char}

private theorem split_waiting (hascending : waiting.Pairwise (·.interval.low ≤ ·.interval.low))
    (hle : ∀ x ∈ waiting, start ≤ x.interval.low) :
    waiting.takeWhile (·.interval.low = start) = waiting.filter (·.interval.low = start) ∧
      waiting.dropWhile (·.interval.low = start) = waiting.filter (·.interval.low ≠ start) := by
  induction waiting with
  | nil => exact ⟨rfl, rfl⟩
  | cons x waiting ih =>
      obtain ⟨hx, hascending⟩ := List.pairwise_cons.1 hascending
      obtain ⟨hstart, hle⟩ := List.forall_mem_cons.1 hle
      by_cases heq : x.interval.low = start
      · obtain ⟨htake, hdrop⟩ := ih hascending hle
        simp [heq, htake, hdrop]
      · have hne : ∀ y ∈ waiting, y.interval.low ≠ start := fun y hy hlow =>
          heq (Char.le_antisymm (hlow ▸ hx y hy) hstart)
        have hnil : waiting.filter (·.interval.low = start) = [] := by
          rw [List.filter_eq_nil_iff]
          simpa using hne
        have hself : waiting.filter (·.interval.low ≠ start) = waiting := by
          rw [List.filter_eq_self]
          simpa using hne
        rw [List.filter_cons_of_neg (by simpa using heq), List.filter_cons_of_pos (by simpa using heq), hnil, hself,
          List.takeWhile_cons_of_neg (by simpa using heq),
          List.dropWhile_cons_of_neg (by simpa using heq)]
        exact ⟨rfl, rfl⟩

/-- What is known of the sweep when some cuts are left: the atoms that start at one of them are waiting, those that
started before are active as long as they have not ended. -/
private structure Swept (atoms : List Atom) (cs : List Char) (waiting active : List Atom) : Prop where
  ascending_cuts : cs.Pairwise (· < ·)
  ascending : waiting.Pairwise (·.interval.low ≤ ·.interval.low)
  waiting_perm : waiting.Perm (atoms.filter (·.interval.low ∈ cs))
  before : ∀ x ∈ atoms, x.interval.low ∉ cs → ∀ start ∈ cs, x.interval.low < start
  active_perm : ∀ start ∈ cs, (active.filter (start ≤ ·.interval.high)).Perm
    (atoms.filter fun x => x.interval.low ∉ cs ∧ start ≤ x.interval.high)

/-- The atoms that are active at the next cut. -/
private def activeAt (start : Char) (waiting active : List Atom) : List Atom :=
  active.filter (start ≤ ·.interval.high) ++ waiting.takeWhile (·.interval.low = start)

namespace Swept

private theorem split (h : Swept atoms (start :: cs) waiting active) :
    waiting.takeWhile (·.interval.low = start) = waiting.filter (·.interval.low = start) ∧
      waiting.dropWhile (·.interval.low = start) = waiting.filter (·.interval.low ≠ start) := by
  refine split_waiting h.ascending fun x hx => ?_
  have hlow := (List.mem_filter.1 (h.waiting_perm.mem_iff.1 hx)).2
  rcases List.mem_cons.1 (of_decide_eq_true hlow) with heq | hmem
  · exact heq ▸ Char.le_refl _
  · exact Char.not_lt.1 (Char.lt_asymm ((List.pairwise_cons.1 h.ascending_cuts).1 _ hmem))

private theorem not_mem (h : Swept atoms (start :: cs) waiting active) : start ∉ cs := fun hmem =>
  Char.lt_irrefl start ((List.pairwise_cons.1 h.ascending_cuts).1 start hmem)

private theorem activeAt_perm (h : Swept atoms (start :: cs) waiting active) {later : Char}
    (hlater : later ∈ start :: cs) :
    ((activeAt start waiting active).filter (later ≤ ·.interval.high)).Perm
      (atoms.filter fun x => x.interval.low ∉ cs ∧ later ≤ x.interval.high) := by
  have hle : start ≤ later := by
    rcases List.mem_cons.1 hlater with rfl | hmem
    · exact Char.le_refl _
    · exact Char.not_lt.1 (Char.lt_asymm ((List.pairwise_cons.1 h.ascending_cuts).1 _ hmem))
  have hold : ((active.filter (start ≤ ·.interval.high)).filter (later ≤ ·.interval.high)).Perm
      ((atoms.filter fun x => x.interval.low ∉ cs ∧ later ≤ x.interval.high).filter (¬ ·.interval.low = start)) := by
    have hkeep : (active.filter (start ≤ ·.interval.high)).filter (later ≤ ·.interval.high) =
        active.filter (later ≤ ·.interval.high) := by
      rw [List.filter_filter]
      refine List.filter_congr fun x _ => ?_
      by_cases hhigh : later ≤ x.interval.high
      · simp [hhigh, Char.le_trans hle hhigh]
      · simp [hhigh]
    rw [hkeep]
    refine (h.active_perm later hlater).trans (List.Perm.of_eq ?_)
    rw [List.filter_filter]
    refine List.filter_congr fun x _ => ?_
    by_cases heq : x.interval.low = start <;> simp [heq]
  have hnew : ((waiting.takeWhile (·.interval.low = start)).filter (later ≤ ·.interval.high)).Perm
      ((atoms.filter fun x => x.interval.low ∉ cs ∧ later ≤ x.interval.high).filter (·.interval.low = start)) := by
    rw [h.split.1]
    refine ((h.waiting_perm.filter _).filter _).trans (List.Perm.of_eq ?_)
    simp only [List.filter_filter]
    refine List.filter_congr fun x _ => ?_
    by_cases heq : x.interval.low = start
    · simp [heq, h.not_mem]
    · simp [heq]
  rw [activeAt, List.filter_append]
  refine (hold.append hnew).trans (List.perm_append_comm.trans ?_)
  have hsplit := List.filter_append_perm (fun x : Atom => decide (x.interval.low = start))
    (atoms.filter fun x => x.interval.low ∉ cs ∧ later ≤ x.interval.high)
  simpa only [decide_not] using hsplit

private theorem step (h : Swept atoms (start :: cs) waiting active) :
    Swept atoms cs (waiting.dropWhile (·.interval.low = start)) (activeAt start waiting active) where
  ascending_cuts := (List.pairwise_cons.1 h.ascending_cuts).2
  ascending := h.ascending.sublist (List.dropWhile_sublist _)
  waiting_perm := by
    rw [h.split.2]
    refine (h.waiting_perm.filter _).trans (List.Perm.of_eq ?_)
    rw [List.filter_filter]
    refine List.filter_congr fun x _ => ?_
    have hnot := h.not_mem
    by_cases heq : x.interval.low = start
    · simp [heq, hnot]
    · simp [heq]
  before := fun x hx hlow later hlater => by
    by_cases heq : x.interval.low = start
    · exact heq ▸ (List.pairwise_cons.1 h.ascending_cuts).1 later hlater
    · exact h.before x hx (by simp [heq, hlow]) later (List.mem_cons_of_mem start hlater)
  active_perm := fun later hlater => h.activeAt_perm (List.mem_cons_of_mem start hlater)

/-- At a cut just those atoms are active that hold it. -/
private theorem activeAt_holds (h : Swept atoms (start :: cs) waiting active)
    (hatoms : ∀ x ∈ atoms, x.interval.low ≤ x.interval.high) :
    (activeAt start waiting active).Perm (atoms.filter (·.interval.contains start)) := by
  have hself : (activeAt start waiting active).filter (start ≤ ·.interval.high) = activeAt start waiting active := by
    refine List.filter_eq_self.2 fun x hx => ?_
    rcases List.mem_append.1 hx with hx | hx
    · exact (List.mem_filter.1 hx).2
    · rw [h.split.1] at hx
      obtain ⟨hwaiting, hlow⟩ := List.mem_filter.1 hx
      have hmem := (List.mem_filter.1 (h.waiting_perm.mem_iff.1 hwaiting)).1
      exact decide_eq_true (of_decide_eq_true hlow ▸ hatoms x hmem)
  rw [← hself]
  refine (h.activeAt_perm List.mem_cons_self).trans (List.Perm.of_eq (List.filter_congr fun x hx => ?_))
  refine decide_eq_decide.2 (and_congr_left fun _ => ⟨fun hlow => ?_, fun hle hmem => ?_⟩)
  · by_cases heq : x.interval.low = start
    · exact heq ▸ Char.le_refl _
    · exact Char.not_lt.1 (Char.lt_asymm (h.before x hx (by simp [heq, hlow]) start List.mem_cons_self))
  · exact Char.not_lt.2 hle ((List.pairwise_cons.1 h.ascending_cuts).1 _ hmem)

end Swept

private theorem sweep_eq {f : Char → Pair} (hatoms : ∀ x ∈ atoms, x.interval.low ≤ x.interval.high)
    (hpair : ∀ start active, active.Perm (atoms.filter (·.interval.contains start)) →
      pairAt single start active = .ok (f start))
    (h : Swept atoms cs waiting active) : sweep single cs waiting active = .ok (cs.map f) := by
  induction cs generalizing waiting active with
  | nil => rfl
  | cons start cs ih =>
      have hrest := ih h.step
      have hfirst := hpair start _ (h.activeAt_holds hatoms)
      rw [activeAt] at hrest hfirst
      simp only [sweep, hfirst, hrest, bind, Except.bind]
      rfl

private theorem mem_cuts : c ∈ cuts atoms ↔
    ∃ x ∈ atoms, c = x.interval.low ∨ Symbol.next? x.interval.high = some c := by
  simp [cuts, eq_comm]

/-- A symbol is held by the same atoms as some cut: the last one before it. -/
private theorem exists_cut (hfirst : ∃ x ∈ atoms, x.interval.low = Symbol.first) (c : Char) :
    ∃ start ∈ cuts atoms, ∀ x ∈ atoms, x.interval.contains start = x.interval.contains c := by
  obtain ⟨x, hx, hlow⟩ := hfirst
  have hmem : Symbol.first ∈ ((cuts atoms).toList.filter (· ≤ c)).toFinset := by
    simp only [List.mem_toFinset, List.mem_filter, decide_eq_true_eq]
    exact ⟨mem_cuts.2 ⟨x, hx, Or.inl hlow.symm⟩, Symbol.first_le c⟩
  obtain ⟨start, hstart, hmax⟩ := Finset.exists_max_image _ Symbol.position ⟨_, hmem⟩
  simp only [List.mem_toFinset, List.mem_filter, decide_eq_true_eq] at hstart hmax
  have hlast : ∀ cut ∈ cuts atoms, cut ≤ c → cut ≤ start := fun cut hcut hle =>
    Symbol.le_iff_position_le.2 (hmax cut ⟨hcut, hle⟩)
  refine ⟨start, hstart.1, fun y hy => decide_eq_decide.2 ⟨fun hmem => ?_, fun hmem => ?_⟩⟩
  · refine ⟨Char.le_trans hmem.1 hstart.2, Char.not_lt.1 fun hlt => ?_⟩
    cases hnext : Symbol.next? y.interval.high with
    | none =>
        rw [Symbol.next?_eq_none_iff.1 hnext] at hlt
        exact Char.not_lt.2 (Symbol.le_last c) hlt
    | some cut =>
        have hcut := hlast cut (mem_cuts.2 ⟨y, hy, Or.inr hnext⟩) ((Symbol.lt_iff_le_of_next? hnext).1 hlt)
        exact Char.not_lt.2 hmem.2 ((Symbol.lt_iff_le_of_next? hnext).2 hcut)
  · exact ⟨hlast _ (mem_cuts.2 ⟨y, hy, Or.inl rfl⟩) hmem.1, Char.le_trans hstart.2 hmem.2⟩

private theorem swept_start (atoms : List Atom) :
    Swept atoms (cuts atoms).toList (atoms.mergeSort fun x y => x.interval.low ≤ y.interval.low) [] := by
  have hmem : ∀ x ∈ atoms, x.interval.low ∈ (cuts atoms).toList := fun x hx => mem_cuts.2 ⟨x, hx, Or.inl rfl⟩
  refine ⟨?_, ?_, ?_, fun x hx hlow => absurd (hmem x hx) hlow, fun start _ => ?_⟩
  · exact (cuts atoms).ascending.imp fun hlt => compareOfLessAndEq_eq_lt.1 hlt
  · have htrans : ∀ x y z : Atom, decide (x.interval.low ≤ y.interval.low) = true →
        decide (y.interval.low ≤ z.interval.low) = true → decide (x.interval.low ≤ z.interval.low) = true :=
      fun x y z hxy hyz => by simpa using Char.le_trans (of_decide_eq_true hxy) (of_decide_eq_true hyz)
    have hpairwise := List.pairwise_mergeSort htrans (fun x y => by simpa using Char.le_total _ _) atoms
    exact hpairwise.imp of_decide_eq_true
  · refine (List.mergeSort_perm atoms _).trans (List.Perm.of_eq (List.filter_eq_self.2 ?_).symm)
    exact fun x hx => decide_eq_true (hmem x hx)
  · refine List.Perm.of_eq (List.filter_eq_nil_iff.2 fun x hx => ?_).symm
    simp [hmem x hx]

theorem sweepPairs_spec {tracked : StateSet} (ha : a.IsComplete) (hb : b.IsComplete) (hsingle : single ∈ b.states)
    (htracked : ∀ t ∈ tracked, t ∈ a.states) :
    ∃ pairs, a.sweepPairs b single tracked = .ok pairs ∧ PairsOf a b single tracked pairs := by
  obtain ⟨atoms, hatoms, hcovers⟩ := atoms_cover ha hb hsingle htracked
  have hsweep := sweep_eq hcovers.low_le_high (fun start active => hcovers.pairAt_eq start) (swept_start atoms)
  refine ⟨.ofList ((cuts atoms).toList.map (nextPair a b single tracked.toList)), ?_, fun p => ?_⟩
  · simp only [sweepPairs, hatoms, bind, Except.bind, hsweep]
    rfl
  · rw [SortedSet.mem_ofList, List.mem_map]
    constructor
    · intro hparts
      obtain ⟨start, _, rfl⟩ := hparts
      exact ⟨start, rfl⟩
    · intro hparts
      obtain ⟨c, rfl⟩ := hparts
      obtain ⟨start, hstart, hsame⟩ := exists_cut hcovers.first_mem c
      exact ⟨start, hstart, hcovers.nextPair_congr hsame⟩

private theorem mapM_edges_error (ha : a.IsComplete) (hfind : tracked.find? (· ∉ a.states) = some t) :
    tracked.mapM a.edges = .error (.notAState t) := by
  induction tracked with
  | nil => cases hfind
  | cons u tracked ih =>
      by_cases hu : u ∈ a.states
      · obtain ⟨edges, hleaves⟩ := ha.leaves u hu
        simp only [List.mapM_cons, hleaves.edges_eq, bind, Except.bind, ih (by simpa [hu] using hfind)]
      · have heq : u = t := by simpa [hu] using hfind
        subst heq
        simp only [List.mapM_cons, edges_of_not_mem hu, bind, Except.bind]

theorem sweepPairs_of_not_mem {tracked : StateSet} (hsingle : single ∉ b.states) :
    a.sweepPairs b single tracked = .error (.notAState single) := by
  rw [sweepPairs, atoms, edges_of_not_mem hsingle]
  rfl

theorem sweepPairs_error {tracked : StateSet} (ha : a.IsComplete) (hb : b.IsComplete) (hsingle : single ∈ b.states)
    (hfind : tracked.toList.find? (· ∉ a.states) = some t) :
    a.sweepPairs b single tracked = .error (.notAState t) := by
  obtain ⟨edges, hleaves⟩ := hb.leaves single hsingle
  simp only [sweepPairs, Automaton.atoms, hleaves.edges_eq, bind, Except.bind, mapM_edges_error ha hfind]

/-! ## Both strategies -/

theorem successors_spec {tracked : StateSet} (ha : a.IsComplete) (hb : b.IsComplete) (hsingle : single ∈ b.states)
    (htracked : ∀ t ∈ tracked, t ∈ a.states) (strategy : Strategy) :
    ∃ pairs, a.successors strategy b single tracked = .ok pairs ∧ PairsOf a b single tracked pairs := by
  cases strategy with
  | crossProduct => exact crossPairs_spec ha hb hsingle htracked
  | atomicSweep => exact sweepPairs_spec ha hb hsingle htracked

theorem PairsOf.unique {tracked : StateSet} {pairs pairs' : SortedSet Pair} (h : PairsOf a b single tracked pairs)
    (h' : PairsOf a b single tracked pairs') : pairs = pairs' :=
  SortedSet.ext fun p => (h p).trans (h' p).symm

/-- The pair of a symbol is where the symbol moves both automata. -/
theorem nextPair_eq_iff {tracked : StateSet} {p : Pair} (ha : a.IsComplete) (hb : b.IsComplete)
    (hsingle : single ∈ b.states) (htracked : ∀ t ∈ tracked, t ∈ a.states) :
    nextPair a b single tracked.toList c = p ↔
      b.move single c = .ok p.single ∧ a.moveAll tracked c = .ok p.tracked := by
  rw [hb.move_eq hsingle, ha.moveAll_eq htracked, nextPair]
  cases p
  simp

/-- Both strategies give the same pairs for automata that were built, and those are the pairs that the symbols lead to;
no step meets a gap or an overlap. A handle that is no state is an error that both strategies give: the single one, if
it is none, or else one of those that are tracked. -/
theorem strategies_agree (ha : a.IsBuilt) (hb : b.IsBuilt) (single : Expr) (tracked : StateSet) :
    (single ∈ b.states → (∀ t ∈ tracked, t ∈ a.states) → ∃ pairs,
      a.successors .crossProduct b single tracked = .ok pairs ∧
      a.successors .atomicSweep b single tracked = .ok pairs ∧
      ∀ p, p ∈ pairs ↔ ∃ c, b.move single c = .ok p.single ∧ a.moveAll tracked c = .ok p.tracked) ∧
    (single ∉ b.states → ∀ strategy, a.successors strategy b single tracked = .error (.notAState single)) ∧
    (single ∈ b.states → (∃ t ∈ tracked, t ∉ a.states) → ∃ t ∈ tracked, t ∉ a.states ∧
      ∀ strategy, a.successors strategy b single tracked = .error (.notAState t)) := by
  have ha := ha.isComplete
  have hb := hb.isComplete
  refine ⟨fun hsingle htracked => ?_, fun hsingle strategy => ?_, fun hsingle hout => ?_⟩
  · obtain ⟨pairs, hcross, hpairs⟩ := successors_spec ha hb hsingle htracked .crossProduct
    obtain ⟨pairs', hsweep, hpairs'⟩ := successors_spec ha hb hsingle htracked .atomicSweep
    rw [hpairs'.unique hpairs] at hsweep
    refine ⟨pairs, hcross, hsweep, fun p => (hpairs p).trans (exists_congr fun c => ?_)⟩
    exact nextPair_eq_iff ha hb hsingle htracked
  · cases strategy with
    | crossProduct => exact crossPairs_of_not_mem hsingle
    | atomicSweep => exact sweepPairs_of_not_mem hsingle
  · obtain ⟨u, hu, hout⟩ := hout
    have hfound : (tracked.toList.find? (· ∉ a.states)).isSome := List.find?_isSome.2 ⟨u, hu, by simpa using hout⟩
    obtain ⟨t, hfind⟩ := Option.isSome_iff_exists.1 hfound
    refine ⟨t, List.mem_of_find?_eq_some hfind, by simpa using List.find?_some hfind, fun strategy => ?_⟩
    cases strategy with
    | crossProduct => exact crossPairs_error ha hb hsingle hfind
    | atomicSweep => exact sweepPairs_error ha hb hsingle hfind

/-- A letter moves the automaton of one lower case letter and its only tracked state to the empty word. -/
theorem strategies_agree_on_lowercase : ∃ pairs,
    lowercaseAutomaton.successors .crossProduct lowercaseAutomaton lowercase.expr (.ofList [lowercase.expr]) =
      .ok pairs ∧
    lowercaseAutomaton.successors .atomicSweep lowercaseAutomaton lowercase.expr (.ofList [lowercase.expr]) =
      .ok pairs ∧
    ⟨.epsilon, .ofList [.epsilon]⟩ ∈ pairs := by
  have hmem : lowercase.expr ∈ lowercaseAutomaton.states := by simp [states, lowercaseAutomaton]
  obtain ⟨pairs, hcross, hsweep, hpairs⟩ := (strategies_agree isBuilt_lowercase isBuilt_lowercase lowercase.expr
    (.ofList [lowercase.expr])).1 hmem (by simpa using hmem)
  refine ⟨pairs, hcross, hsweep, (hpairs _).2 ⟨'m', move_lowercase, ?_⟩⟩
  simp only [moveAll, SortedSet.ofList, List.foldl_cons, List.foldl_nil]
  show (do let targets ← [lowercase.expr].mapM (lowercaseAutomaton.move · 'm'); return SortedSet.ofList targets) = _
  simp [List.mapM_cons, move_lowercase, bind, Except.bind, pure, Except.pure, SortedSet.ofList]

end Automaton

end RegexAlgebra
