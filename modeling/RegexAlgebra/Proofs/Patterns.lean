import RegexAlgebra.Pattern.Expression
import RegexAlgebra.Pattern.Faults
import RegexAlgebra.Proofs.Languages
import RegexAlgebra.Proofs.Repetitions
import RegexAlgebra.Semantics.PatternMatching

/-! # Patterns and their expressions

The recursion over a pattern tree meets the faults of the tree in their order and stops at the first one. If there are
none, it comes to a handle that expresses what the tree matches. Either way it does the same again on every pool that
remembers. All this is said of each part at once (`Builds`), so that the parts of a tree are put together by the rules
below, whether they have faults or not.
-/

namespace RegexAlgebra

open Pool

namespace Pieces

variable {input word : List Char} {R S : Pieces} {P Q : Char → Prop} {c : Char}

theorem symbol_or : Pieces.Agree input (fun i j => Symbol input P i j ∨ Symbol input Q i j)
    (Symbol input fun c => P c ∨ Q c) := by
  refine .of_iff fun i j => ?_
  simp only [Symbol, and_or_left, exists_or]

/-- A word is its first symbol and the rest. -/
theorem agree_cons : Agree input (Concat (Symbol input (· ∈ Interval.mk c c)) fun i j => slice input i j = word)
    fun i j => slice input i j = c :: word := by
  intro i j hij
  have hrest : Reads input (fun i j => slice input i j = word) {w | w = word} := fun _ _ _ => Iff.rfl
  refine ((Reads.symbol.concat hrest i j hij).trans Language.mem_mul).trans ?_
  constructor
  · intro hparts
    obtain ⟨_, ⟨d, hd, rfl⟩, _, rfl, hslice⟩ := hparts
    obtain rfl : d = c := Char.le_antisymm hd.2 hd.1
    exact hslice.symm
  · intro hslice
    exact ⟨[c], ⟨c, ⟨Char.le_refl c, Char.le_refl c⟩, rfl⟩, word, rfl, hslice.symm⟩

end Pieces

namespace Session

variable {pool : Pool} {e f : Expr} {session : Session Expr} {faults faults' : List Error} {R S : List Char → Pieces}

/-- The session grows the pool. It fails with the first of the faults; if there are none, it gives a handle that
expresses the relations. -/
abbrev Yields (session : Session Expr) (pool : Pool) (faults : List Error) (R : List Char → Pieces) : Prop :=
  Session.Ends session pool (fun e later => faults = [] ∧ later.Expresses R e) fun error => faults.head? = some error

/-- The session yields what the relations say, or the first fault, and does the same again. -/
structure Builds (session : Session Expr) (pool : Pool) (faults : List Error) (R : List Char → Pieces) : Prop where
  yields : Yields session pool faults R
  repeats : Repeats session session pool

theorem builds_pure (he : pool.Expresses R e) : Builds (pure e) pool [] R :=
  ⟨RegexAlgebra.Ends.pure ⟨rfl, he⟩, .pure e pool⟩

theorem builds_throw (error : Error) (pool : Pool) (R : List Char → Pieces) :
    Builds (throw error) pool [error] R :=
  ⟨RegexAlgebra.Ends.throw rfl, .throw error pool⟩

theorem builds_build {constructor : Pool → Built} (h : pool.Sound) (hgrows : pool.Grows (constructor pool).pool)
    (he : (constructor pool).pool.Expresses R (constructor pool).expr)
    (hagain : ∀ later, Remembers (constructor pool).pool later →
      constructor later = ⟨(constructor pool).expr, later⟩) : Builds (build constructor) pool [] R :=
  ⟨⟨hgrows, rfl, he⟩, repeats_build (hgrows.remembers h) hagain⟩

theorem builds_granted {constructor : Pool → Except Error Built} {built : Built} (h : pool.Sound)
    (hrun : constructor pool = .ok built) (hgrows : pool.Grows built.pool) (he : built.pool.Expresses R built.expr)
    (hagain : ∀ later, Remembers built.pool later → constructor later = .ok ⟨built.expr, later⟩) :
    Builds (build? constructor) pool [] R := by
  have hfirst : build? constructor pool = .ok built.expr built.pool := by rw [build?, hrun]
  constructor
  · unfold Yields Session.Ends RegexAlgebra.Ends
    rw [hfirst]
    exact ⟨hgrows, rfl, he⟩
  · unfold Session.Repeats RegexAlgebra.Repeats
    rw [hfirst]
    exact ⟨hgrows.remembers h, fun later hlater => by rw [build?, hagain later hlater]⟩

theorem builds_refused {constructor : Pool → Except Error Built} {error : Error}
    (hrun : ∀ pool, constructor pool = .error error) (pool : Pool) (R : List Char → Pieces) :
    Builds (build? constructor) pool [error] R := by
  have hfirst : ∀ pool, build? constructor pool = .error error pool := fun pool => by rw [build?, hrun]
  constructor
  · unfold Yields Session.Ends RegexAlgebra.Ends
    rw [hfirst]
    exact ⟨.refl, rfl⟩
  · unfold Session.Repeats RegexAlgebra.Repeats
    rw [hfirst]
    exact ⟨.refl pool, fun later _ => hfirst later⟩

theorem builds_range (h : pool.Sound) (interval : Interval) :
    Builds (build (·.range interval.low interval.high)) pool [] fun input => Pieces.Symbol input (· ∈ interval) where
  yields := ⟨.range _ _ .refl, rfl, (range_settles h _ _).expresses_range⟩
  repeats := repeats_range h interval.low interval.high

theorem builds_binary (h : pool.Sound) (op : BinaryOp) (he : pool.Expresses R e) (hf : pool.Expresses S f) :
    Builds (build (·.binary op e f)) pool [] fun input => op.pieces (R input) (S input) where
  yields := ⟨.binary op .refl he.has hf.has, rfl, (binary_settles h op he.has hf.has).expresses_binary he hf⟩
  repeats := repeats_binary h op he.has hf.has

theorem builds_unary (h : pool.Sound) (op : UnaryOp) (he : pool.Expresses R e) :
    Builds (build (·.unary op e)) pool [] fun input => op.pieces (R input) where
  yields := ⟨.unary op .refl he.has, rfl, (unary_settles h op he.has).expresses_unary he⟩
  repeats := repeats_unary h op he.has

theorem builds_copies (h : pool.Sound) (he : pool.Expresses R e) (count : Nat) :
    Builds (build (·.repeatExactly e count)) pool [] fun input => Pieces.Power (R input) count := by
  obtain ⟨hgrows, hcopies⟩ := repeatExactly_expresses h he count
  exact builds_build h hgrows hcopies fun later => repeatExactly_again h he.has count

namespace Builds

theorem congr (h : Builds session pool faults R) (hagree : ∀ input, Pieces.Agree input (R input) (S input)) :
    Builds session pool faults S :=
  ⟨RegexAlgebra.Ends.mono h.yields fun _ _ _ he => ⟨he.1, he.2.congr hagree⟩, h.repeats⟩

/-- Faults of the first part come before those of the second part. -/
theorem bind {next : Expr → Session Expr} (h : pool.Sound) (hsession : Builds session pool faults R)
    (hnext : ∀ e later, pool.Grows later → later.Sound → later.Expresses R e → Builds (next e) later faults' S) :
    Builds (session >>= next) pool (faults ++ faults') S := by
  constructor
  · refine RegexAlgebra.Ends.bind (hsession.yields.mono_fails fun error hhead => ?_) fun e later hgrows he => ?_
    · rw [List.head?_append, hhead]
      rfl
    · rw [he.1, List.nil_append]
      exact (hnext e later hgrows (hgrows.sound h) he.2).yields
  · apply hsession.repeats.bind
    intro e later hrun
    obtain ⟨hgrows, _, he⟩ := hsession.yields.of_ok hrun
    exact (hnext e later hgrows (hgrows.sound h) he).repeats

end Builds

end Session

namespace Pattern

open Session

/-! ## Bytes -/

section Bytes

variable {bytes : List UInt8} {word : List Char} {range : UInt8 × UInt8} {c : Char}

theorem toByteArray_eq (bytes : List UInt8) : bytes.toByteArray = ByteArray.mk bytes.toArray := by
  suffices hloop : ∀ before, List.toByteArray.loop bytes before = ByteArray.mk (before.data ++ bytes.toArray) from
    (hloop _).trans (congrArg ByteArray.mk (Array.empty_append ..))
  induction bytes with
  | nil => exact fun before => congrArg ByteArray.mk Array.append_empty.symm
  | cons byte bytes ih =>
      intro before
      refine (ih (before.push byte)).trans (congrArg ByteArray.mk ?_)
      show before.data.push byte ++ bytes.toArray = before.data ++ (byte :: bytes).toArray
      simp

/-- Decoding gives the word that the bytes encode, and nothing if there is none. -/
theorem utf8Decode?_eq_some_iff : (ByteArray.mk bytes.toArray).utf8Decode? = some word.toArray ↔
    word.flatMap String.utf8EncodeChar = bytes := by
  constructor
  · intro hdecode
    obtain ⟨other, hother⟩ := ByteArray.isSome_utf8Decode?_iff.1 (Option.isSome_of_eq_some hdecode)
    rw [hother, List.utf8Decode?_utf8Encode, Option.some.injEq] at hdecode
    rw [List.toArray_inj hdecode, List.utf8Encode, toByteArray_eq, ByteArray.mk.injEq] at hother
    exact (List.toArray_inj hother).symm
  · rintro rfl
    rw [← toByteArray_eq]
    exact List.utf8Decode?_utf8Encode

theorem spells_iff : Spells bytes word ↔ word = literalWord bytes := by
  unfold Spells literalWord
  simp only [ne_eq, ← utf8Decode?_eq_some_iff]
  cases hdecode : (ByteArray.mk bytes.toArray).utf8Decode? with
  | some decoded =>
      obtain ⟨other, rfl⟩ : ∃ other : List Char, other.toArray = decoded := ⟨decoded.toList, decoded.toArray_toList⟩
      simp [eq_comm]
  | none =>
      have hcodes : bytes.map UInt8.toNat = (bytes.map Char.ofUInt8).map Char.toNat := by
        rw [List.map_map]
        rfl
      rw [hcodes]
      simp only [reduceCtorEq, not_false_eq_true, implies_true, true_and, false_or]
      exact (List.map_injective_iff.2 fun _ _ => Char.toNat_inj.1).eq_iff

theorem mem_byteInterval : c ∈ byteInterval range ↔ range.1.toNat ≤ c.toNat ∧ c.toNat ≤ range.2.toNat := Iff.rfl

end Bytes

/-! ## Trees -/

variable {pool : Pool} {e union : Expr} {R : List Char → Pieces}

theorem wordExpr_builds (h : pool.Sound) (word : List Char) :
    Builds (wordExpr word) pool [] fun input i j => Pieces.slice input i j = word := by
  induction word generalizing pool with
  | nil => exact (builds_pure h.expresses_epsilon).congr fun input i j hij => (Pieces.slice_eq_nil_iff hij).symm
  | cons c word ih =>
      apply (ih h).bind h
      intro tail middle _ hmiddle htail
      apply (builds_range hmiddle ⟨c, c⟩).bind hmiddle
      intro head later hgrows hlater hhead
      have hwhole := builds_binary hlater .concat hhead (htail.mono (hgrows.extends_pool hmiddle))
      exact hwhole.congr fun input => Pieces.agree_cons

theorem addRanges_builds (h : pool.Sound) (hunion : pool.Expresses R union) (ranges : List Interval) :
    Builds (addRanges union ranges) pool [] fun input i j =>
      R input i j ∨ Pieces.Symbol input (fun c => ∃ interval ∈ ranges, c ∈ interval) i j := by
  induction ranges generalizing pool union R with
  | nil => exact (builds_pure hunion).congr fun input => .of_iff fun i j => by simp [Pieces.Symbol]
  | cons interval ranges ih =>
      apply (builds_range h interval).bind h
      intro range middle hgrows hmiddle hrange
      apply (builds_binary hmiddle .union (hunion.mono (hgrows.extends_pool h)) hrange).bind hmiddle
      intro union later _ hlater hunion
      refine (ih hlater hunion).congr fun input i j hij => ?_
      simp only [BinaryOp.pieces, or_assoc, Pieces.symbol_or i j hij, List.exists_mem_cons_iff]

theorem lookExpr_builds (h : pool.Sound) (look : Look) :
    Builds (lookExpr look) pool look.faults fun input i j => i = j ∧ look.HoldsAt input i := by
  unfold lookExpr
  split
  · refine (builds_pure h.expresses_startAnchor).congr fun input => .of_iff fun i j => ?_
    show i = 0 ∧ j = 0 ↔ i = j ∧ i = 0
    omega
  · refine (builds_pure h.expresses_endAnchor).congr fun input => .of_iff fun i j => ?_
    show i = input.length ∧ j = input.length ↔ i = j ∧ i = input.length
    omega
  · rename_i hstart hfinish
    have hfaults : look.faults = [.unsupportedLook look] := by
      unfold Look.faults
      split
      · exact absurd rfl hstart
      · exact absurd rfl hfinish
      · rfl
    rw [hfaults]
    exact builds_throw _ pool _

theorem repetitionExpr_builds (h : pool.Sound) (he : pool.Expresses R e) (min : Nat) (max : Option Nat) :
    Builds (repetitionExpr e min max) pool (boundFaults min max) fun input i j =>
      ∃ n, min ≤ n ∧ (∀ m, max = some m → n ≤ m) ∧ Pieces.Power (R input) n i j := by
  cases max with
  | some max =>
      by_cases hlt : max < min
      · rw [boundFaults, if_pos hlt]
        exact builds_refused (fun pool => repeat?_of_lt hlt pool e) pool _
      · obtain ⟨built, hrun, hgrows, hbuilt⟩ := repeat?_expresses h he (Nat.le_of_not_lt hlt)
        rw [boundFaults, if_neg hlt]
        have hbuilds := builds_granted h hrun hgrows hbuilt fun _ hlater => repeat?_again h he.has hrun hlater
        exact hbuilds.congr fun input => .of_iff fun i j => by simp
  | none =>
      apply (builds_copies h he min).bind h
      intro copies middle hgrows hmiddle hcopies
      apply (builds_unary hmiddle .star (he.mono (hgrows.extends_pool h))).bind hmiddle
      intro star later hgrows' hlater hstar
      have hwhole := builds_binary hlater .concat (hcopies.mono (hgrows'.extends_pool hmiddle)) hstar
      exact hwhole.congr fun input => .of_iff fun i j => Pieces.concat_power_star.trans (by simp)

mutual

theorem toExpr_builds (pattern : Pattern) {pool : Pool} (h : pool.Sound) :
    Builds pattern.toExpr pool pattern.faults fun input => pattern.Matches input := by
  cases pattern with
  | empty => exact builds_pure h.expresses_epsilon
  | literal bytes => exact (wordExpr_builds h _).congr fun input => .of_iff fun i j => spells_iff.symm
  | symbolClass ranges =>
      exact (addRanges_builds h h.expresses_empty ranges).congr fun input => .of_iff fun i j => (false_or _).to_iff
  | byteClass ranges =>
      refine (addRanges_builds h h.expresses_empty (ranges.map byteInterval)).congr fun input => .of_iff fun i j => ?_
      simp [Matches, mem_byteInterval]
  | look assertion => exact lookExpr_builds h assertion
  | repetition min max greedy sub =>
      apply (toExpr_builds sub h).bind h
      intro e later _ hlater he
      exact repetitionExpr_builds hlater he min max
  | capture index name sub => exact toExpr_builds sub h
  | concat parts => exact concatExpr_builds parts h
  | alternation branches =>
      exact (addBranches_builds branches h h.expresses_empty).congr fun input => .of_iff fun i j => (false_or _).to_iff

theorem concatExpr_builds (parts : List Pattern) {pool : Pool} (h : pool.Sound) :
    Builds (concatExpr parts) pool (partFaults parts) fun input => AllMatch input parts := by
  cases parts with
  | nil => exact builds_pure h.expresses_epsilon
  | cons part parts =>
      apply (concatExpr_builds parts h).bind h
      intro tail middle _ hmiddle htail
      rw [← List.append_nil part.faults]
      apply (toExpr_builds part hmiddle).bind hmiddle
      intro head later hgrows hlater hhead
      exact builds_binary hlater .concat hhead (htail.mono (hgrows.extends_pool hmiddle))

theorem addBranches_builds (branches : List Pattern) {pool : Pool} {union : Expr} {R : List Char → Pieces}
    (h : pool.Sound) (hunion : pool.Expresses R union) :
    Builds (addBranches union branches) pool (branchFaults branches) fun input i j =>
      R input i j ∨ AnyMatches input branches i j := by
  cases branches with
  | nil => exact (builds_pure hunion).congr fun input => .of_iff fun i j => (or_false _).to_iff.symm
  | cons branch branches =>
      apply (toExpr_builds branch h).bind h
      intro e middle hgrows hmiddle he
      apply (builds_binary hmiddle .union (hunion.mono (hgrows.extends_pool h)) he).bind hmiddle
      intro union later _ hlater hunion
      exact (addBranches_builds branches hlater hunion).congr fun input => .of_iff fun i j => or_assoc

end

theorem toExpr_yields (pattern : Pattern) (h : pool.Sound) :
    Yields pattern.toExpr pool pattern.faults fun input => pattern.Matches input := (toExpr_builds pattern h).yields

end Pattern

end RegexAlgebra
