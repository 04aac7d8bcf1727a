import Taxonomy.Proofs.Hierarchy.Bounds
import Taxonomy.Representation.Rows

/-!
# Rows answer like walking

The rows below are made by walking, the rows above by reading the rows below the other way round.
Either way bit `j` of row `i` says whether a path joins the `i`th and the `j`th covered type
(`Represents`), and the numbers of types ascend with their presentation order. A hull of rows is
therefore the ascending list of the covered candidates that no other covered candidate reaches
(`mem_hull_iff`, `pairwise_hull`).

For this to be the bounds, no candidate may be left out. Candidates for least upper bounds are below
a covered type, and what is covered is closed downward (`mem_coverage_of_transGen`). Candidates for
greatest lower bounds are above it, which is why a scope excludes them from compilation.
-/

open Relation

namespace Taxonomy.Rows

variable {h : Hierarchy} {scope : Option Ty} {a b t left right : Ty} {i j : Nat}

/-! ## Numbers -/

/-- The places in a list without repetition are those that `idxOf?` finds. -/
private theorem idxOf?_eq_some_iff {l : List Ty} (hl : l.Nodup) :
    l.idxOf? t = some i ↔ l[i]? = some t := by
  rw [List.idxOf?_eq_some_iff, List.getElem?_eq_some_iff]
  constructor
  · rintro ⟨hi, ht, -⟩
    exact ⟨hi, ht⟩
  · rintro ⟨hi, ht⟩
    exact ⟨hi, ht, fun j hj heq ↦ List.pairwise_iff_getElem.1 hl j i _ hi hj (heq.trans ht.symm)⟩

/-- A covered type's number is its place. -/
theorem index?_eq_some_iff :
    (compile h scope).index? t = some i ↔ (coverage h scope).toList[i]? = some t := by
  rw [index?_compile, idxOf?_eq_some_iff (FinSet.nodup _)]

theorem index?_isSome_iff : (∃ i, (compile h scope).index? t = some i) ↔ t ∈ coverage h scope := by
  rw [← FinSet.mem_toList, List.mem_iff_getElem?]
  exact exists_congr fun i ↦ index?_eq_some_iff

theorem indices?_eq_some_iff : (compile h scope).indices? left right = some (i, j) ↔
    (compile h scope).index? left = some i ∧ (compile h scope).index? right = some j := by
  simp [indices?, Option.bind_eq_some_iff]

/-! ## What the rows stand for -/

/-- Bit `j` of row `i` says whether the `i`th and the `j`th of some types are related. -/
def Represents (types : List Ty) (rows : Array BitSet) (r : Ty → Ty → Prop) : Prop :=
  ∀ i j, (rows.getD i ∅).contains j ↔ ∃ a b, types[i]? = some a ∧ types[j]? = some b ∧ r a b

/-- A bit at the places of two types says whether these are related. -/
theorem Represents.contains_iff {types : List Ty} {rows : Array BitSet} {r : Ty → Ty → Prop}
    (hrows : Represents types rows r) (hi : types[i]? = some a) (hj : types[j]? = some b) :
    (rows.getD i ∅).contains j ↔ r a b := by
  rw [hrows i j]
  constructor
  · rintro ⟨a', b', ha, hb, hr⟩
    obtain rfl := Option.some.inj (hi.symm.trans ha)
    obtain rfl := Option.some.inj (hj.symm.trans hb)
    exact hr
  · intro hr
    exact ⟨a, b, hi, hj, hr⟩

/-- A row past the last one is empty. -/
private theorem getD_toArray_map {α : Type} (f : α → BitSet) (l : List α) (i : Nat) :
    (l.map f).toArray.getD i ∅ = (l[i]?.map f).getD ∅ := by
  rw [Array.getD_eq_getD_getElem?, List.getElem?_toArray, List.getElem?_map]

theorem represents_below (hm : h.Mirrored) :
    Represents (coverage h scope).toList (compile h scope).below (TransGen h.Edge) := by
  intro i j
  have hrow : (compile h scope).below.getD i ∅ = ((coverage h scope).toList[i]?.map fun t ↦
      BitSet.ofList ((h.descendants t).toList.filterMap (compile h scope).index?)).getD ∅ :=
    getD_toArray_map _ _ i
  rw [hrow]
  cases ha : (coverage h scope).toList[i]? with
  | none => simp
  | some a =>
    rw [Option.map_some, Option.getD_some, BitSet.contains_ofList, List.mem_filterMap]
    constructor
    · rintro ⟨b, hb, hj⟩
      refine ⟨a, b, rfl, index?_eq_some_iff.1 hj, ?_⟩
      exact (Hierarchy.mem_descendants_iff hm).1 (FinSet.mem_toList.1 hb)
    · rintro ⟨a', b, heq, hj, hpath⟩
      obtain rfl := Option.some.inj heq
      refine ⟨b, FinSet.mem_toList.2 ?_, index?_eq_some_iff.2 hj⟩
      exact (Hierarchy.mem_descendants_iff hm).2 hpath

/-- The rows above are the rows below read the other way round. -/
theorem contains_above_iff (hm : h.Mirrored) :
    ((compile h scope).above.getD j ∅).contains i ↔
      ((compile h scope).below.getD i ∅).contains j := by
  let below : List BitSet := (coverage h scope).toList.map fun t ↦
    BitSet.ofList ((h.descendants t).toList.filterMap (compile h scope).index?)
  have hrow : (compile h scope).above.getD j ∅ =
      ((List.range (coverage h scope).toList.length)[j]?.map fun j ↦
        BitSet.ofList ((below.zipIdx.filter fun row ↦ row.1.contains j).map Prod.snd)).getD ∅ :=
    getD_toArray_map _ _ j
  have hbelow : (compile h scope).below.getD i ∅ = below[i]?.getD ∅ := by
    rw [Array.getD_eq_getD_getElem?]
    exact congrArg (Option.getD · ∅) List.getElem?_toArray
  by_cases hj : j < (coverage h scope).toList.length
  · -- column `j` collects the places of the rows that have bit `j`
    rw [hrow, hbelow, List.getElem?_range hj, Option.map_some, Option.getD_some,
      BitSet.contains_ofList]
    simp only [List.mem_map, List.mem_filter, List.mem_zipIdx_iff_getElem?, Prod.exists,
      exists_eq_right]
    cases hrow : below[i]? with
    | none => simp
    | some row => simp
  · -- a place past the last one has no row, and no row below has a bit for it
    rw [hrow, List.getElem?_eq_none (by simpa using hj), Option.map_none, Option.getD_none,
      BitSet.contains_empty]
    refine iff_of_false Bool.false_ne_true fun hbit ↦ ?_
    obtain ⟨-, b, -, hb, -⟩ := (represents_below hm i j).1 hbit
    exact hj (List.getElem?_eq_some_iff.1 hb).1

theorem represents_above (hm : h.Mirrored) :
    Represents (coverage h scope).toList (compile h scope).above
      (Function.swap (TransGen h.Edge)) := by
  intro j i
  rw [contains_above_iff hm, represents_below hm]
  constructor
  · rintro ⟨a, b, ha, hb, hpath⟩
    exact ⟨b, a, hb, ha, hpath⟩
  · rintro ⟨b, a, hb, ha, hpath⟩
    exact ⟨a, b, ha, hb, hpath⟩

/-! ## Coverage -/

theorem mem_coverage_scope_iff (hm : h.Mirrored) {scope : Ty} :
    t ∈ coverage h (some scope) ↔ TransGen h.Edge scope t ∨ t = scope ∧ h.hasType scope :=
  Hierarchy.mem_reflexiveClosure_iff hm

theorem hasType_of_mem_coverage (hm : h.Mirrored) (ht : t ∈ coverage h scope) : h.hasType t := by
  cases scope with
  | none => exact Hierarchy.mem_types.1 ht
  | some scope =>
    rcases (mem_coverage_scope_iff hm).1 ht with hpath | ⟨rfl, hmem⟩
    · exact (hm.hasType_of_transGen (d := .down) hpath).2
    · exact hmem

/-- What is covered is closed downward. -/
theorem mem_coverage_of_transGen (hm : h.Mirrored) (ha : a ∈ coverage h scope)
    (hpath : TransGen h.Edge a b) : b ∈ coverage h scope := by
  cases scope with
  | none => exact Hierarchy.mem_types.2 (hm.hasType_of_transGen (d := .down) hpath).2
  | some scope =>
    rw [mem_coverage_scope_iff hm]
    rcases (mem_coverage_scope_iff hm).1 ha with hscope | ⟨rfl, -⟩
    · exact .inl (hscope.trans hpath)
    · exact .inl hpath

/-! ## Hulls -/

section Hull

variable {types : List Ty} {rows : Rows} {toward away : Array BitSet} {r : Ty → Ty → Prop} {x : Nat}

/-- The candidates for a bound of the types with two numbers, as bits. -/
private def candidates (toward : Array BitSet) (i j : Nat) : BitSet :=
  ((toward.getD i ∅).insert i).inter ((toward.getD j ∅).insert j)

/-- In a list without repetition equal places are places of equal types. -/
private theorem place_eq_iff (hnodup : types.Nodup) (hi : types[i]? = some a)
    (hx : types[x]? = some t) : i = x ↔ t = a := by
  constructor
  · rintro rfl
    exact Option.some.inj (hx.symm.trans hi)
  · rintro rfl
    have hlt : i < types.length := (List.getElem?_eq_some_iff.1 hi).1
    exact (List.getElem?_inj hlt hnodup).1 (hi.trans hx.symm)

/-- A bit is a candidate if its type is related to both types, or one of them. -/
private theorem contains_candidates_iff (hnodup : types.Nodup) (htoward : Represents types toward r)
    (hi : types[i]? = some left) (hj : types[j]? = some right) (hx : types[x]? = some t) :
    (candidates toward i j).contains x ↔ (r left t ∨ t = left) ∧ (r right t ∨ t = right) := by
  have hrow : ∀ {y : Nat} {a : Ty}, types[y]? = some a →
      (((toward.getD y ∅).insert y).contains x ↔ r a t ∨ t = a) := by
    intro y a hy
    rw [BitSet.contains_insert, Bool.or_eq_true, htoward.contains_iff hy hx, decide_eq_true_eq,
      place_eq_iff hnodup hy hx]
  rw [candidates, BitSet.contains_inter, Bool.and_eq_true, hrow hi, hrow hj]

/-- The bits that make a hull leave a type out are the other candidates that are related to it. -/
private theorem isEmpty_rivals_iff (hnodup : types.Nodup) (htoward : Represents types toward r)
    (haway : Represents types away (Function.swap r)) (hi : types[i]? = some left)
    (hj : types[j]? = some right) (hx : types[x]? = some t) :
    (((away.getD x ∅).inter (candidates toward i j)).erase x).isEmpty ↔
      ∀ other ∈ types, (r left other ∨ other = left) ∧ (r right other ∨ other = right) →
        r other t → other = t := by
  rw [BitSet.isEmpty_iff]
  constructor
  · intro hnone other hother hcandidate hr
    obtain ⟨n, hn⟩ := List.mem_iff_getElem?.1 hother
    have haway' : (away.getD x ∅).contains n := (haway.contains_iff hx hn).2 hr
    have hcandidate' : (candidates toward i j).contains n :=
      (contains_candidates_iff hnodup htoward hi hj hn).2 hcandidate
    have hn' := hnone n
    rw [BitSet.contains_erase, BitSet.contains_inter, haway', hcandidate'] at hn'
    exact (place_eq_iff hnodup hx hn).1 (by simpa using hn')
  · intro hall n
    refine Bool.eq_false_iff.2 fun hbit ↦ ?_
    rw [BitSet.contains_erase, BitSet.contains_inter, Bool.and_eq_true, Bool.and_eq_true,
      Bool.not_eq_true', decide_eq_false_iff_not] at hbit
    obtain ⟨⟨haway', hcandidate'⟩, hne⟩ := hbit
    obtain ⟨t', other, ht', hn, hr⟩ := (haway x n).1 haway'
    obtain rfl := Option.some.inj (hx.symm.trans ht')
    have hcandidate := (contains_candidates_iff hnodup htoward hi hj hn).1 hcandidate'
    have heq : other = t := hall other (List.mem_of_getElem? hn) hcandidate hr
    exact hne ((place_eq_iff hnodup hx hn).2 heq)

/-- **A hull consists of the candidates that no other candidate is related to.** -/
theorem mem_hull_iff (htypes : ∀ x : Nat, rows.types[x]? = types[x]?) (hnodup : types.Nodup)
    (htoward : Represents types toward r) (haway : Represents types away (Function.swap r))
    (hi : types[i]? = some left) (hj : types[j]? = some right) :
    t ∈ rows.hull toward away i j ↔ t ∈ types ∧ ((r left t ∨ t = left) ∧ (r right t ∨ t = right)) ∧
      ∀ other ∈ types, (r left other ∨ other = left) ∧ (r right other ∨ other = right) →
        r other t → other = t := by
  rw [hull, List.mem_filterMap]
  constructor
  · rintro ⟨x, hx, ht⟩
    rw [List.mem_filter, BitSet.mem_toList] at hx
    rw [htypes] at ht
    exact ⟨List.mem_of_getElem? ht, (contains_candidates_iff hnodup htoward hi hj ht).1 hx.1,
      (isEmpty_rivals_iff hnodup htoward haway hi hj ht).1 hx.2⟩
  · rintro ⟨hmem, hcandidate, hall⟩
    obtain ⟨x, hx⟩ := List.mem_iff_getElem?.1 hmem
    refine ⟨x, List.mem_filter.2 ⟨BitSet.mem_toList.2 ?_, ?_⟩, ?_⟩
    · exact (contains_candidates_iff hnodup htoward hi hj hx).2 hcandidate
    · exact (isEmpty_rivals_iff hnodup htoward haway hi hj hx).2 hall
    · rw [htypes, hx]

/-- A hull is listed in the order of the types. -/
theorem pairwise_hull (htypes : ∀ x : Nat, rows.types[x]? = types[x]?)
    (hascending : types.Pairwise fun a b ↦ compare a b = .lt) :
    (rows.hull toward away i j).Pairwise fun a b ↦ compare a b = .lt := by
  refine List.Pairwise.filterMap _ (fun x y hxy a ha b hb ↦ ?_)
    (List.Pairwise.filter _ (BitSet.pairwise_toList _))
  rw [htypes, List.getElem?_eq_some_iff] at ha hb
  obtain ⟨hx, rfl⟩ := ha
  obtain ⟨hy, rfl⟩ := hb
  exact List.pairwise_iff_getElem.1 hascending x y hx hy hxy

end Hull

/-! ## What compiled rows answer -/

theorem types_compile (x : Nat) :
    (compile h scope).types[x]? = (coverage h scope).toList[x]? := List.getElem?_toArray

/-- **Rows subsume like walking.** -/
theorem subsumes_compile (hm : h.Mirrored)
    (hij : (compile h scope).indices? left right = some (i, j)) :
    (compile h scope).subsumes i j = h.subsumes left right := by
  obtain ⟨hi, hj⟩ := indices?_eq_some_iff.1 hij
  rw [index?_eq_some_iff] at hi hj
  rw [Bool.eq_iff_iff, Hierarchy.subsumes_iff hm, reflTransGen_iff_eq_or_transGen, subsumes,
    Bool.or_eq_true, decide_eq_true_eq, place_eq_iff (FinSet.nodup _) hi hj,
    (represents_below hm).contains_iff hi hj]

/-- A hull is the bounds if the rows stand for paths and no candidate is left uncovered. -/
private theorem hull_compile (hm : h.Mirrored) {b : Bound} {toward away : Array BitSet}
    (htoward : Represents (coverage h scope).toList toward (TransGen (h.Step b.direction)))
    (haway : Represents (coverage h scope).toList away
      (Function.swap (TransGen (h.Step b.direction))))
    (hclosed : ∀ t, TransGen (h.Step b.direction) left t → t ∈ coverage h scope)
    (hij : (compile h scope).indices? left right = some (i, j)) :
    (compile h scope).hull toward away i j = (h.bounds b left right).toList := by
  obtain ⟨hi, hj⟩ := indices?_eq_some_iff.1 hij
  rw [index?_eq_some_iff] at hi hj
  have hleft : left ∈ coverage h scope := FinSet.mem_toList.1 (List.mem_of_getElem? hi)
  have hright : right ∈ coverage h scope := FinSet.mem_toList.1 (List.mem_of_getElem? hj)
  have hshared : ∀ t, h.Shared b.direction left right t ↔
      (TransGen (h.Step b.direction) left t ∨ t = left) ∧
        (TransGen (h.Step b.direction) right t ∨ t = right) := by
    intro t
    rw [Hierarchy.Shared, and_iff_left (hasType_of_mem_coverage hm hleft),
      and_iff_left (hasType_of_mem_coverage hm hright)]
  -- no candidate is left out, nor a type that would keep one from being a bound
  have hcovered : ∀ t, h.Shared b.direction left right t → t ∈ (coverage h scope).toList := by
    intro t ht
    rw [FinSet.mem_toList]
    rcases ((hshared t).1 ht).1 with hpath | rfl
    · exact hclosed t hpath
    · exact hleft
  refine (FinSet.toList_eq (pairwise_hull types_compile (FinSet.ascending _)) fun t ↦ ?_).symm
  rw [mem_hull_iff types_compile (FinSet.nodup _) htoward haway hi hj, Hierarchy.mem_bounds_iff hm]
  simp only [← hshared]
  constructor
  · rintro ⟨-, ht, hall⟩
    exact ⟨ht, fun other hother ↦ hall other (hcovered other hother) hother⟩
  · rintro ⟨ht, hall⟩
    exact ⟨hcovered t ht, ht, fun other _ hother ↦ hall other hother⟩

/-- **Rows bound like walking**, except that a scope excludes greatest lower bounds. -/
theorem bounds_compile (hm : h.Mirrored) {b : Bound} (hb : b = .greatestLower → scope = none)
    (hij : (compile h scope).indices? left right = some (i, j)) :
    (compile h scope).bounds b i j = (h.bounds b left right).toList := by
  have hleft : left ∈ coverage h scope :=
    index?_isSome_iff.1 ⟨i, (indices?_eq_some_iff.1 hij).1⟩
  cases b with
  | leastUpper =>
    refine hull_compile hm (represents_below hm) (represents_above hm) (fun t hpath ↦ ?_) hij
    exact mem_coverage_of_transGen hm hleft hpath
  | greatestLower =>
    obtain rfl := hb rfl
    have habove : TransGen (h.Step .up) = Function.swap (TransGen h.Edge) := by
      funext a t
      exact propext hm.transGen_step_up_iff
    refine hull_compile hm ?_ ?_ (fun t hpath ↦ ?_) hij
    · rw [Bound.direction, habove]
      exact represents_above hm
    · rw [Bound.direction, habove]
      exact represents_below hm
    · exact Hierarchy.mem_types.2 (hm.hasType_of_transGen hpath).2

/-- Rows depend on the structure and the generation alone. -/
theorem compile_eq_of_sameStructure {k : Hierarchy} (hk : h.SameStructure k)
    (hgeneration : k.generation = h.generation) (scope : Option Ty) :
    compile k scope = compile h scope := by
  obtain ⟨root, parents, children, attributes, own, generation⟩ := k
  obtain rfl : parents = h.parents := hk.parents_eq
  obtain rfl : children = h.children := hk.children_eq
  obtain rfl : generation = h.generation := hgeneration
  cases scope <;> rfl

/-! ## Sizes -/

/-- There is a row below for each type. -/
theorem size_below : (compile h scope).below.size = (compile h scope).types.size := by
  change (List.map _ _).toArray.size = (List.toArray _).size
  rw [List.size_toArray, List.size_toArray, List.length_map]

/-- There is a row above for each type. -/
theorem size_above : (compile h scope).above.size = (compile h scope).types.size := by
  change (List.map _ _).toArray.size = (List.toArray _).size
  rw [List.size_toArray, List.size_toArray, List.length_map, List.length_range]

theorem size_le_width (rows : Rows) : rows.types.size ≤ rows.width := by
  rw [width, granularity]
  omega

/-- A number that every table of some rows has a place for. -/
structure InRange (rows : Rows) (i : Nat) : Prop where
  lt_types : i < rows.types.size
  lt_below : i < rows.below.size
  lt_above : i < rows.above.size
  lt_width : i < rows.width

theorem inRange_of_lt (hi : i < (compile h scope).types.size) : (compile h scope).InRange i where
  lt_types := hi
  lt_below := by rwa [size_below]
  lt_above := by rwa [size_above]
  lt_width := Nat.lt_of_lt_of_le hi (size_le_width _)

theorem inRange_of_index? (hi : (compile h scope).index? t = some i) :
    (compile h scope).InRange i :=
  inRange_of_lt (List.getElem?_eq_some_iff.1 (index?_eq_some_iff.1 hi)).1

/-- Rows have bits for types only. -/
theorem inRange_of_contains (hm : h.Mirrored)
    (hbit : ((compile h scope).below.getD i ∅).contains j ∨
      ((compile h scope).above.getD i ∅).contains j) :
    (compile h scope).InRange i ∧ (compile h scope).InRange j := by
  rcases hbit with hbit | hbit
  · obtain ⟨a, b, ha, hb, -⟩ := (represents_below hm i j).1 hbit
    exact ⟨inRange_of_lt (List.getElem?_eq_some_iff.1 ha).1,
      inRange_of_lt (List.getElem?_eq_some_iff.1 hb).1⟩
  · obtain ⟨a, b, ha, hb, -⟩ := (represents_above hm i j).1 hbit
    exact ⟨inRange_of_lt (List.getElem?_eq_some_iff.1 ha).1,
      inRange_of_lt (List.getElem?_eq_some_iff.1 hb).1⟩

end Taxonomy.Rows
