/-!
# Sets as ascending lists

A finite set of an ordered type, kept as the ascending list of its elements. Two sets with the same elements are equal,
and the elements are given in their order.

The order is any `Ord` instance; its laws are asked for where they are needed.
-/

namespace RegexAlgebra

universe u

/-- A finite set, as the ascending list of its elements. -/
structure SortedSet (α : Type u) [Ord α] where
  toList : List α
  ascending : toList.Pairwise fun a b => compare a b = .lt

namespace SortedSet

variable {α : Type u} [Ord α]

/-- Puts `a` into an ascending list, unless it is there. -/
def insertSorted (a : α) : List α → List α
  | [] => [a]
  | b :: bs =>
    match compare a b with
    | .lt => a :: b :: bs
    | .eq => b :: bs
    | .gt => b :: insertSorted a bs

theorem mem_insertSorted [Std.LawfulEqOrd α] {a c : α} {bs : List α} :
    c ∈ insertSorted a bs ↔ c = a ∨ c ∈ bs := by
  induction bs with
  | nil => simp [insertSorted]
  | cons b bs ih =>
    unfold insertSorted
    split
    · simp
    · rename_i h
      rw [Std.compare_eq_iff_eq] at h
      subst h
      simp
    · simp only [List.mem_cons, ih]
      exact ⟨fun h => by rcases h with h | h | h <;> simp [h], fun h => by rcases h with h | h | h <;> simp [h]⟩

theorem pairwise_insertSorted [Std.TransOrd α] [Std.LawfulEqOrd α] {a : α} {bs : List α}
    (h : bs.Pairwise fun a b => compare a b = .lt) :
    (insertSorted a bs).Pairwise fun a b => compare a b = .lt := by
  induction bs with
  | nil => simp [insertSorted]
  | cons b bs ih =>
    have hb := (List.pairwise_cons.1 h).1
    have hbs := (List.pairwise_cons.1 h).2
    unfold insertSorted
    split
    · rename_i hlt
      refine List.pairwise_cons.2 ⟨?_, h⟩
      intro c hc
      rcases List.mem_cons.1 hc with rfl | hc
      · exact hlt
      · exact Std.TransCmp.lt_trans hlt (hb c hc)
    · exact h
    · rename_i hgt
      refine List.pairwise_cons.2 ⟨?_, ih hbs⟩
      intro c hc
      rcases mem_insertSorted.1 hc with rfl | hc
      · exact Std.OrientedCmp.lt_of_gt hgt
      · exact hb c hc

instance : EmptyCollection (SortedSet α) := ⟨⟨[], List.Pairwise.nil⟩⟩

instance : Membership α (SortedSet α) := ⟨fun s a => a ∈ s.toList⟩

theorem mem_iff {a : α} {s : SortedSet α} : a ∈ s ↔ a ∈ s.toList := Iff.rfl

instance [DecidableEq α] (a : α) (s : SortedSet α) : Decidable (a ∈ s) :=
  inferInstanceAs (Decidable (a ∈ s.toList))

instance [DecidableEq α] : DecidableEq (SortedSet α) := fun s t =>
  decidable_of_iff (s.toList = t.toList)
    ⟨fun h => by cases s; cases t; cases h; rfl, fun h => h ▸ rfl⟩

variable [Std.TransOrd α] [Std.LawfulEqOrd α]

def insert (a : α) (s : SortedSet α) : SortedSet α :=
  ⟨insertSorted a s.toList, pairwise_insertSorted s.ascending⟩

def ofList (as : List α) : SortedSet α := as.foldl (fun s a => s.insert a) ∅

def union (s t : SortedSet α) : SortedSet α := t.toList.foldl (fun s a => s.insert a) s

@[simp] theorem mem_insert {a c : α} {s : SortedSet α} : c ∈ s.insert a ↔ c = a ∨ c ∈ s :=
  mem_insertSorted

private theorem mem_foldl_insert {c : α} {as : List α} {s : SortedSet α} :
    c ∈ as.foldl (fun s a => s.insert a) s ↔ c ∈ as ∨ c ∈ s := by
  induction as generalizing s with
  | nil => simp
  | cons a as ih =>
    rw [List.foldl_cons, ih, mem_insert, List.mem_cons]
    exact ⟨fun h => by rcases h with h | h | h <;> simp [h], fun h => by rcases h with (h | h) | h <;> simp [h]⟩

@[simp] theorem mem_ofList {c : α} {as : List α} : c ∈ ofList as ↔ c ∈ as := by
  rw [ofList, mem_foldl_insert]
  exact ⟨fun h => h.resolve_right List.not_mem_nil, Or.inl⟩

@[simp] theorem mem_union {c : α} {s t : SortedSet α} : c ∈ s.union t ↔ c ∈ s ∨ c ∈ t := by
  rw [union, mem_foldl_insert, mem_iff, Or.comm]
  exact Iff.rfl

/-- Sets with the same elements are equal. -/
theorem ext {s t : SortedSet α} (h : ∀ a, a ∈ s ↔ a ∈ t) : s = t := by
  obtain ⟨as, has⟩ := s
  obtain ⟨bs, hbs⟩ := t
  have heq : as = bs := by
    induction as generalizing bs with
    | nil =>
      cases bs with
      | nil => rfl
      | cons b bs => exact absurd ((h b).2 (List.mem_cons_self)) List.not_mem_nil
    | cons a as ih =>
      cases bs with
      | nil => exact absurd ((h a).1 (List.mem_cons_self)) List.not_mem_nil
      | cons b bs =>
        have ha := List.pairwise_cons.1 has
        have hb := List.pairwise_cons.1 hbs
        have hab : a = b := by
          rcases List.mem_cons.1 ((h a).1 List.mem_cons_self) with hab | hab
          · exact hab
          · rcases List.mem_cons.1 ((h b).2 List.mem_cons_self) with hba | hba
            · exact hba.symm
            · have h1 := hb.1 a hab
              have h2 := ha.1 b hba
              exact absurd (Std.TransCmp.lt_trans h1 h2) (by simp)
        subst hab
        refine congrArg (a :: ·) (ih ha.2 bs hb.2 fun c => ?_)
        have hc := h c
        simp only [mem_iff, List.mem_cons] at hc ⊢
        constructor
        · intro hmem
          rcases hc.1 (Or.inr hmem) with rfl | hmem'
          · exact absurd (ha.1 c hmem) (by simp)
          · exact hmem'
        · intro hmem
          rcases hc.2 (Or.inr hmem) with rfl | hmem'
          · exact absurd (hb.1 c hmem) (by simp)
          · exact hmem'
  subst heq
  rfl

end SortedSet

end RegexAlgebra
