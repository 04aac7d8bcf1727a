import Std.Data.ExtTreeSet

/-!
# Finite sets in ascending order

A `FinSet` keeps its members in a balanced tree ordered by `compare`. The shape of the tree cannot
be observed: two sets with the same members are equal (`FinSet.ext`), so equality of sets, and of
everything built from them, is decided by comparing data. `toList` is the strictly ascending listing
that every answer uses (`FinSet.ascending`).

Each operation comes with the one lemma that says what it does to membership.
-/

namespace Taxonomy

/-- A finite set, listed in strictly ascending order. -/
structure FinSet (α : Type) [Ord α] where
  /-- The members. -/
  tree : Std.ExtTreeSet α compare

namespace FinSet

variable {α : Type} [Ord α] [Std.TransOrd α]

/-! ## Membership -/

/-- The members, ascending. -/
def toList (s : FinSet α) : List α := s.tree.toList

instance : Membership α (FinSet α) where
  mem s a := a ∈ s.tree

instance (a : α) (s : FinSet α) : Decidable (a ∈ s) := inferInstanceAs (Decidable (a ∈ s.tree))

instance : EmptyCollection (FinSet α) where
  emptyCollection := ⟨∅⟩

instance : Inhabited (FinSet α) := ⟨∅⟩

/-- The number of members. -/
def size (s : FinSet α) : Nat := s.tree.size

/-- Whether there is no member. -/
def isEmpty (s : FinSet α) : Bool := s.tree.isEmpty

/-- Each member is below all later ones. -/
theorem ascending (s : FinSet α) : s.toList.Pairwise fun a b ↦ compare a b = .lt :=
  Std.ExtTreeSet.ordered_toList

@[simp] theorem length_toList (s : FinSet α) : s.toList.length = s.size :=
  Std.ExtTreeSet.length_toList

@[simp] theorem toList_empty : (∅ : FinSet α).toList = [] := rfl

@[simp] theorem not_mem_empty (a : α) : a ∉ (∅ : FinSet α) := Std.ExtTreeSet.not_mem_empty

theorem isEmpty_iff {s : FinSet α} : s.isEmpty ↔ ∀ a, a ∉ s := by
  rw [isEmpty, Std.ExtTreeSet.isEmpty_iff, Std.ExtTreeSet.eq_empty_iff_forall_not_mem]
  rfl

omit [Std.TransOrd α] in
private theorem nodup_of_ascending [Std.ReflOrd α] {l : List α}
    (h : l.Pairwise fun a b ↦ compare a b = .lt) : l.Nodup :=
  h.imp fun {a b} hab heq ↦ by
    rw [heq, Std.ReflOrd.compare_self] at hab
    exact nomatch hab

/-- A set lists no member twice. -/
theorem nodup (s : FinSet α) : s.toList.Nodup := nodup_of_ascending s.ascending

/-- Two sets are equal exactly if they are listed alike. -/
theorem toList_inj {s t : FinSet α} : s.toList = t.toList ↔ s = t := by
  obtain ⟨s⟩ := s
  obtain ⟨t⟩ := t
  rw [toList, toList, Std.ExtTreeSet.toList_inj, FinSet.mk.injEq]

instance [DecidableEq α] : DecidableEq (FinSet α) := fun _ _ ↦ decidable_of_iff _ toList_inj

/-! ## Sets made of two sets -/

/-- The members of either set. -/
def union (s t : FinSet α) : FinSet α := ⟨s.tree ∪ t.tree⟩

@[simp] theorem mem_union {a : α} {s t : FinSet α} : a ∈ s.union t ↔ a ∈ s ∨ a ∈ t :=
  Std.ExtTreeSet.mem_union_iff

/-- The members of both sets. -/
def inter (s t : FinSet α) : FinSet α := ⟨s.tree ∩ t.tree⟩

@[simp] theorem mem_inter {a : α} {s t : FinSet α} : a ∈ s.inter t ↔ a ∈ s ∧ a ∈ t :=
  Std.ExtTreeSet.mem_inter_iff

variable [Std.LawfulEqOrd α]

/-! ## Listing -/

@[simp] theorem mem_toList {a : α} {s : FinSet α} : a ∈ s.toList ↔ a ∈ s :=
  Std.ExtTreeSet.mem_toList

/-- Sets with the same members are equal. -/
theorem ext {s t : FinSet α} (h : ∀ a, a ∈ s ↔ a ∈ t) : s = t :=
  congrArg FinSet.mk (Std.ExtTreeSet.ext_mem h)

/-- An ascending list of the members lists the set. -/
theorem toList_eq {s : FinSet α} {l : List α} (hl : l.Pairwise fun a b ↦ compare a b = .lt)
    (h : ∀ a, a ∈ l ↔ a ∈ s) : s.toList = l := by
  refine List.Perm.eq_of_pairwise (fun a b _ _ hab hba ↦ ?_) s.ascending hl
    ((List.perm_ext_iff_of_nodup s.nodup (nodup_of_ascending hl)).2 fun a ↦ ?_)
  · rw [Std.OrientedOrd.eq_swap, hba] at hab
    exact nomatch hab
  · rw [mem_toList, h]

/-- A list of members without repetition is no longer than the set. -/
theorem length_le_size {s : FinSet α} {l : List α} (hl : l.Nodup) (h : ∀ a ∈ l, a ∈ s) :
    l.length ≤ s.size := by
  rw [← length_toList]
  exact hl.length_le_of_subset fun a ha ↦ mem_toList.2 (h a ha)

/-- A set that lacks a member of another set, and has no further one, is smaller. -/
theorem size_lt_size {s t : FinSet α} {a : α} (h : ∀ b ∈ s, b ∈ t) (ha : a ∈ t) (hs : a ∉ s) :
    s.size < t.size := by
  have hcons : (a :: s.toList).Nodup := List.nodup_cons.2 ⟨by rwa [mem_toList], s.nodup⟩
  rw [← length_toList s]
  refine length_le_size (l := a :: s.toList) hcons fun b hb ↦ ?_
  rcases List.mem_cons.1 hb with rfl | hb
  · exact ha
  · exact h b (mem_toList.1 hb)

/-- A set has at most one member exactly if all its members are equal. -/
theorem size_le_one_iff {s : FinSet α} : s.size ≤ 1 ↔ ∀ a ∈ s, ∀ b ∈ s, a = b := by
  have hnodup : s.toList.Nodup := s.nodup
  simp only [← length_toList, ← mem_toList]
  match s.toList, hnodup with
  | [], _ => simp
  | [a], _ => simp
  | a :: b :: rest, hnodup =>
    have hne : a ≠ b := fun heq ↦ (List.nodup_cons.1 hnodup).1 (heq ▸ List.mem_cons_self)
    refine iff_of_false (by simp) fun heq ↦ hne (heq a List.mem_cons_self b ?_)
    exact List.mem_cons_of_mem a List.mem_cons_self

/-- The listing of a set with one member. -/
theorem toList_eq_singleton_iff {s : FinSet α} {a : α} : s.toList = [a] ↔ ∀ b, b ∈ s ↔ b = a := by
  constructor
  · intro h b
    rw [← mem_toList, h, List.mem_singleton]
  · intro h
    exact toList_eq (List.pairwise_singleton _ a) fun b ↦ List.mem_singleton.trans (h b).symm

/-! ## Insertion and removal -/

/-- Adds a member. -/
def insert (s : FinSet α) (a : α) : FinSet α := ⟨s.tree.insert a⟩

@[simp] theorem mem_insert {a b : α} {s : FinSet α} : b ∈ s.insert a ↔ b = a ∨ b ∈ s := by
  show b ∈ s.tree.insert a ↔ _
  rw [Std.ExtTreeSet.mem_insert, Std.LawfulEqCmp.compare_eq_iff_eq, eq_comm]
  rfl

/-- Takes a member away. -/
def erase (s : FinSet α) (a : α) : FinSet α := ⟨s.tree.erase a⟩

@[simp] theorem mem_erase {a b : α} {s : FinSet α} : b ∈ s.erase a ↔ b ∈ s ∧ b ≠ a := by
  show b ∈ s.tree.erase a ↔ _
  rw [Std.ExtTreeSet.mem_erase, ne_eq, Std.LawfulEqCmp.compare_eq_iff_eq, and_comm, eq_comm]
  rfl

/-- Adds the elements of a list. -/
def insertAll (s : FinSet α) (l : List α) : FinSet α := l.foldl insert s

@[simp] theorem mem_insertAll {a : α} {s : FinSet α} {l : List α} :
    a ∈ s.insertAll l ↔ a ∈ s ∨ a ∈ l := by
  induction l generalizing s with
  | nil => simp [insertAll]
  | cons b rest ih =>
    rw [insertAll, List.foldl_cons, ← insertAll, ih, mem_insert, List.mem_cons,
      or_comm (a := a = b), or_assoc]

/-- The set of the elements of a list. -/
def ofList (l : List α) : FinSet α := insertAll ∅ l

@[simp] theorem mem_ofList {a : α} {l : List α} : a ∈ ofList l ↔ a ∈ l := by
  simp [ofList]

/-- Lists with the same elements make the same set. -/
theorem ofList_congr {l m : List α} (h : ∀ a, a ∈ l ↔ a ∈ m) : ofList l = ofList m :=
  ext fun a ↦ mem_ofList.trans ((h a).trans mem_ofList.symm)

/-- A set is made again from its listing. -/
theorem ofList_toList (s : FinSet α) : ofList s.toList = s :=
  ext fun _ ↦ mem_ofList.trans mem_toList

/-! ## Lists without repetition -/

/-- The elements of a list that are no members, each where it occurs first. -/
def firstsOutside (seen : FinSet α) : List α → List α
  | [] => []
  | a :: rest =>
    if a ∈ seen then firstsOutside seen rest else a :: firstsOutside (seen.insert a) rest

/-- The elements of a list, each where it occurs first. -/
def firsts (l : List α) : List α := firstsOutside ∅ l

theorem firstsOutside_eq [DecidableEq α] (seen : FinSet α) (l : List α) :
    firstsOutside seen l = (l.filter (· ∉ seen)).eraseDups := by
  induction l generalizing seen with
  | nil => rfl
  | cons a rest ih =>
    rw [firstsOutside]
    split
    · rename_i h
      rw [ih, List.filter_cons_of_neg (by simpa using h)]
    · rename_i h
      rw [ih, List.filter_cons_of_pos (by simpa using h), List.eraseDups_cons, List.filter_filter]
      refine congrArg (a :: List.eraseDups ·) (List.filter_congr fun b _ ↦ ?_)
      simp [Bool.beq_eq_decide_eq]

theorem firsts_eq_eraseDups [DecidableEq α] (l : List α) : firsts l = l.eraseDups := by
  rw [firsts, firstsOutside_eq, List.filter_eq_self.2 fun _ _ ↦ by simp]

theorem mem_firstsOutside {a : α} {seen : FinSet α} {l : List α} :
    a ∈ firstsOutside seen l ↔ a ∈ l ∧ a ∉ seen := by
  classical
  rw [firstsOutside_eq, List.mem_eraseDups, List.mem_filter, decide_eq_true_eq]

theorem mem_firsts {a : α} {l : List α} : a ∈ firsts l ↔ a ∈ l :=
  mem_firstsOutside.trans (and_iff_left (not_mem_empty a))

theorem nodup_firstsOutside (seen : FinSet α) (l : List α) : (firstsOutside seen l).Nodup := by
  induction l generalizing seen with
  | nil => exact .nil
  | cons a rest ih =>
    rw [firstsOutside]
    split
    · exact ih seen
    · refine List.nodup_cons.2 ⟨fun h ↦ ?_, ih _⟩
      exact (mem_firstsOutside.1 h).2 (mem_insert.2 (.inl rfl))

theorem nodup_firsts (l : List α) : (firsts l).Nodup := nodup_firstsOutside ∅ l

theorem firstsOutside_eq_self {seen : FinSet α} {l : List α} (hl : l.Nodup)
    (hseen : ∀ a ∈ l, a ∉ seen) : firstsOutside seen l = l := by
  induction l generalizing seen with
  | nil => rfl
  | cons a rest ih =>
    obtain ⟨ha, hrest⟩ := List.nodup_cons.1 hl
    rw [firstsOutside, if_neg (hseen a List.mem_cons_self)]
    refine congrArg (a :: ·) (ih hrest fun b hb hmem ↦ ?_)
    rcases mem_insert.1 hmem with rfl | hmem
    · exact ha hb
    · exact hseen b (List.mem_cons_of_mem a hb) hmem

/-- A list without repetition is its own first occurrences. -/
theorem firsts_eq_self {l : List α} (hl : l.Nodup) : firsts l = l :=
  firstsOutside_eq_self hl fun a _ ↦ not_mem_empty a

theorem pairwise_firstsOutside [DecidableEq α] (seen : FinSet α) (l : List α) :
    (firstsOutside seen l).Pairwise fun a b ↦ l.idxOf a < l.idxOf b := by
  induction l generalizing seen with
  | nil => exact .nil
  | cons c rest ih =>
    have hlater : ∀ {a}, a ≠ c → (c :: rest).idxOf a = rest.idxOf a + 1 := fun hne ↦ by
      rw [List.idxOf_cons, beq_eq_false_iff_ne.2 hne.symm, cond_false]
    -- what is not `c` is found one place further on
    have hshift : ∀ outside : FinSet α, c ∈ outside →
        (firstsOutside outside rest).Pairwise fun a b ↦
          (c :: rest).idxOf a < (c :: rest).idxOf b := by
      intro outside hc
      refine (ih outside).imp_of_mem fun {a b} ha hb hlt ↦ ?_
      have hne : ∀ d ∈ firstsOutside outside rest, d ≠ c := fun d hd heq ↦
        (mem_firstsOutside.1 hd).2 (heq ▸ hc)
      rw [hlater (hne a ha), hlater (hne b hb)]
      exact Nat.succ_lt_succ hlt
    rw [firstsOutside]
    split
    · rename_i hc
      exact hshift seen hc
    · refine List.pairwise_cons.2 ⟨fun b hb ↦ ?_, hshift _ (mem_insert.2 (.inl rfl))⟩
      have hne : b ≠ c := fun heq ↦
        (mem_firstsOutside.1 hb).2 (mem_insert.2 (.inl heq))
      rw [List.idxOf_cons_self, hlater hne]
      exact Nat.succ_pos _

/-- First occurrences come in the order of their places in the list. -/
theorem pairwise_firsts [DecidableEq α] (l : List α) :
    (firsts l).Pairwise fun a b ↦ l.idxOf a < l.idxOf b := pairwise_firstsOutside ∅ l

/-! ## Selection -/

/-- The members that pass a test. -/
def filter (p : α → Bool) (s : FinSet α) : FinSet α := ⟨s.tree.filter p⟩

@[simp] theorem mem_filter {a : α} {p : α → Bool} {s : FinSet α} :
    a ∈ s.filter p ↔ a ∈ s ∧ p a := by
  show a ∈ s.tree.filter p ↔ _
  simp only [Std.ExtTreeSet.mem_filter, Std.ExtTreeSet.get_eq, exists_prop]
  rfl

/-- Selection keeps the order of the listing. -/
theorem toList_filter (p : α → Bool) (s : FinSet α) : (s.filter p).toList = s.toList.filter p :=
  toList_eq (s.ascending.sublist List.filter_sublist) fun a ↦ by
    rw [List.mem_filter, mem_toList, mem_filter]

end FinSet

end Taxonomy
