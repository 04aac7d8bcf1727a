import Taxonomy.Proofs.Hierarchy.Omission
import Taxonomy.Proofs.Hierarchy.Tracking
import Taxonomy.Proofs.Resolution.PartialOrder
import Taxonomy.Proofs.Walk.Distance

/-!
# Sorting into strata

The strata of a hierarchy are those of a stratified walk down from the root. It comes to all
members, also to those on or below cycles, so that types sorted into strata are all kept
(`perm_stratasort`).

Without cycles a member has a *grade*, the length of the longest path to it from the root, which is
the index of its stratum. Going down an edge the grade goes up. Sorting picks some members from each
stratum and drops the strata of which nothing is left, so the indices change; what stays is that
strata are `Graded`, with one grade in each and lower grades in earlier ones. From this alone
follows that the order of strata is the order of grades (`Graded.lt_iff`), and then that a member
comes in an earlier stratum than what it properly subsumes (`Grown.stratasort_by_grade`).
-/

open Relation

namespace Taxonomy.Hierarchy

open Walk

variable {h : Hierarchy} {s t : Ty} {i j m n : Nat} {strata : List (List Ty)} {types : List Ty}

/-! ## Grades -/

/-- The longest path from the root to the type has `n` edges. -/
def Grade (h : Hierarchy) (n : Nat) (t : Ty) : Prop :=
  IsGreatest {n | PathFrom (· = h.root) h.Edge n t} n

theorem WellFormed.exists_pathFrom (hw : h.WellFormed) (ht : h.hasType t) :
    ∃ n, PathFrom (· = h.root) h.Edge n t := by
  have hpath : ReflTransGen h.Edge h.root t := hw.reached t ht
  induction hpath with
  | refl => exact ⟨0, .here rfl⟩
  | tail _ hedge ih =>
    obtain ⟨n, hn⟩ := ih (hw.mirrored.hasType_left hedge)
    exact ⟨n + 1, hn.tail hedge⟩

/-- A path that begins anywhere can be made longer so as to begin at the root. -/
theorem WellFormed.exists_pathFrom_of_pathTo (hw : h.WellFormed) (ht : h.hasType t)
    (hpath : PathTo h.Edge n t) : ∃ m ≥ n, PathFrom (· = h.root) h.Edge m t := by
  induction hpath with
  | here t =>
    obtain ⟨m, hm⟩ := hw.exists_pathFrom ht
    exact ⟨m, Nat.zero_le m, hm⟩
  | tail _ hedge ih =>
    obtain ⟨m, hle, hm⟩ := ih (hw.mirrored.hasType_left hedge)
    exact ⟨m + 1, Nat.succ_le_succ hle, hm.tail hedge⟩

theorem pathTo_of_pathFrom {start : Ty → Prop} {r : Ty → Ty → Prop}
    (hpath : PathFrom start r n t) : PathTo r n t := by
  induction hpath with
  | here => exact .here _
  | tail _ hedge ih => exact ih.tail hedge

/-- The longest of all paths to a member begins at the root. -/
theorem WellFormed.grade_of_pathTo (hw : h.WellFormed) (ht : h.hasType t)
    (hmax : IsGreatest {n | PathTo h.Edge n t} n) : h.Grade n t := by
  obtain ⟨m, hle, hm⟩ := hw.exists_pathFrom_of_pathTo ht hmax.1
  have heq : m = n := Nat.le_antisymm (hmax.2 (pathTo_of_pathFrom hm)) hle
  exact ⟨heq ▸ hm, fun k hk ↦ hmax.2 (pathTo_of_pathFrom hk)⟩

namespace Grade

theorem hasType (hs : h.Grade n s) (hw : h.WellFormed) : h.hasType s := by
  cases hs.1 with
  | here hroot => exact hroot ▸ hw.hasType_root
  | tail _ hedge => exact hw.mirrored.hasType_right hedge

theorem unique (hm : h.Grade m s) (hn : h.Grade n s) : m = n := IsGreatest.unique hm hn

/-- The grade goes up on the way down. -/
theorem lt_of_transGen (hs : h.Grade m s) (ht : h.Grade n t) (hpath : TransGen h.Edge s t) :
    m < n := by
  suffices ∃ k > m, PathFrom (· = h.root) h.Edge k t by
    obtain ⟨k, hlt, hk⟩ := this
    exact Nat.lt_of_lt_of_le hlt (ht.2 hk)
  clear ht
  induction hpath with
  | single hedge => exact ⟨m + 1, Nat.lt_succ_self m, hs.1.tail hedge⟩
  | tail _ hedge ih =>
    obtain ⟨k, hlt, hk⟩ := ih
    exact ⟨k + 1, Nat.lt_succ_of_lt hlt, hk.tail hedge⟩

end Grade

/-! ## Strata by grade -/

/-- The type is in the stratum with the index. -/
def Placed (strata : List (List Ty)) (i : Nat) (t : Ty) : Prop :=
  ∃ stratum, strata[i]? = some stratum ∧ t ∈ stratum

/-- Each stratum is of one grade, and earlier strata are of lower grades. Types without a grade may
be anywhere. -/
structure Graded (h : Hierarchy) (strata : List (List Ty)) : Prop where
  same : ∀ stratum ∈ strata, ∀ s ∈ stratum, ∀ t ∈ stratum, ∀ m n, h.Grade m s → h.Grade n t → m = n
  ascending : strata.Pairwise fun earlier later ↦
    ∀ s ∈ earlier, ∀ t ∈ later, ∀ m n, h.Grade m s → h.Grade n t → m < n

namespace Graded

/-- Strata with the grades as their indices. -/
theorem of_grade (hgrade : ∀ i t, Placed strata i t → h.Grade i t) : h.Graded strata where
  same stratum hstratum s hs t ht m n hm hn := by
    obtain ⟨i, hi⟩ := List.mem_iff_getElem?.1 hstratum
    exact (hm.unique (hgrade i s ⟨stratum, hi, hs⟩)).trans
      ((hgrade i t ⟨stratum, hi, ht⟩).unique hn)
  ascending := by
    rw [List.pairwise_iff_getElem]
    intro i j hi hj hij s hs t ht m n hm hn
    rwa [hm.unique (hgrade i s ⟨_, List.getElem?_eq_getElem hi, hs⟩),
      hn.unique (hgrade j t ⟨_, List.getElem?_eq_getElem hj, ht⟩)]

/-- Types may be left out of strata. -/
theorem map_filter (hg : h.Graded strata) (p : Ty → Bool) :
    h.Graded (strata.map (·.filter p)) where
  same stratum hstratum s hs t ht := by
    obtain ⟨whole, hwhole, rfl⟩ := List.mem_map.1 hstratum
    exact hg.same whole hwhole s (List.mem_filter.1 hs).1 t (List.mem_filter.1 ht).1
  ascending := by
    refine List.pairwise_map.2 (hg.ascending.imp fun hlt s hs t ht ↦ ?_)
    exact hlt s (List.mem_filter.1 hs).1 t (List.mem_filter.1 ht).1

/-- Strata may be left out. -/
theorem sublist {part : List (List Ty)} (hg : h.Graded strata) (hsub : part.Sublist strata) :
    h.Graded part where
  same stratum hstratum := hg.same stratum (hsub.subset hstratum)
  ascending := hg.ascending.sublist hsub

/-- A stratum of types without a grade may be added. -/
theorem append_strangers (hg : h.Graded strata) {strangers : List Ty}
    (hnone : ∀ t ∈ strangers, ∀ n, ¬ h.Grade n t) : h.Graded (strata ++ [strangers]) where
  same stratum hstratum s hs t ht m n hm hn := by
    rcases List.mem_append.1 hstratum with hmem | hlast
    · exact hg.same stratum hmem s hs t ht m n hm hn
    · rw [List.mem_singleton.1 hlast] at hs
      exact absurd hm (hnone s hs m)
  ascending := by
    refine List.pairwise_append.2 ⟨hg.ascending, List.pairwise_singleton _ _, ?_⟩
    intro earlier _ later hlater s _ t ht m n _ hn
    rw [List.mem_singleton.1 hlater] at ht
    exact absurd hn (hnone t ht n)

/-- **The order of strata is the order of grades.** -/
theorem lt_iff (hg : h.Graded strata) (hs : Placed strata i s) (ht : Placed strata j t)
    (hm : h.Grade m s) (hn : h.Grade n t) : i < j ↔ m < n := by
  have hlt : ∀ {i j s t m n}, Placed strata i s → Placed strata j t → h.Grade m s → h.Grade n t →
      i < j → m < n := by
    rintro i j s t m n ⟨earlier, hi, hs⟩ ⟨later, hj, ht⟩ hm hn hij
    obtain ⟨hilt, rfl⟩ := List.getElem?_eq_some_iff.1 hi
    obtain ⟨hjlt, rfl⟩ := List.getElem?_eq_some_iff.1 hj
    exact List.pairwise_iff_getElem.1 hg.ascending i j hilt hjlt hij s hs t ht m n hm hn
  refine ⟨hlt hs ht hm hn, fun hmn ↦ ?_⟩
  rcases Nat.lt_trichotomy i j with hij | rfl | hji
  · exact hij
  · obtain ⟨stratum, hi, hs⟩ := hs
    obtain ⟨stratum', hi', ht⟩ := ht
    obtain rfl : stratum = stratum' := Option.some.inj (hi.symm.trans hi')
    exact absurd (hg.same stratum (List.mem_of_getElem? hi) s hs t ht m n hm hn) hmn.ne
  · exact absurd (hlt ht hs hn hm hji) hmn.asymm

end Graded

/-! ## The strata of a hierarchy -/

/-- The walk that the strata of a hierarchy are from. -/
def census : Plan where
  direction := .down
  stratify := true

namespace WellFormed

/-- It is to visit all members. -/
theorem region_census_iff (hw : h.WellFormed) : h.Region census t ↔ h.hasType t := by
  let plain : Plan := { direction := .down }
  have hplain : t ∈ (h.walk plain Visitor.never).order ↔ h.Region plain t :=
    hw.mirrored.mem_order_walk
  have hlayered : h.Region { plain with stratify := true } t ↔ h.Region plain t :=
    hw.mirrored.region_stratify_iff true
  exact hlayered.trans (hplain.symm.trans hw.mem_order_down)

/-- Its steps are all edges. -/
theorem regionStep_census (hw : h.WellFormed) : h.RegionStep census = h.Edge := by
  funext a b
  refine propext ⟨fun hab ↦ hab.2.2, fun hab ↦ ⟨?_, ?_, hab⟩⟩
  · exact hw.region_census_iff.2 (hw.mirrored.hasType_left hab)
  · exact hw.region_census_iff.2 (hw.mirrored.hasType_right hab)

theorem unhalted_census (hw : h.WellFormed) :
    Unhalted (h.successors census) false Visitor.never h.types ∅ (h.walk census Visitor.never) := by
  have hunhalted : (h.walk census Visitor.never).halted = false := halted_never
  obtain ⟨types, htypes, hu⟩ := hw.mirrored.exists_unhalted (by rfl) hunhalted
  obtain rfl : types = h.types := FinSet.ext fun t ↦ by
    rw [htypes, hw.region_census_iff, mem_types]
  exact hu

/-- The strata hold every member once. -/
theorem perm_strata (hw : h.WellFormed) : h.strata.flatten.Perm h.types.toList := by
  have hu := hw.unhalted_census
  have hflatten : h.strata.flatten = (h.walk census Visitor.never).order := hu.flatten_strata
  rw [hflatten]
  exact hu.perm_order

theorem mem_strata_iff (hw : h.WellFormed) : t ∈ h.strata.flatten ↔ h.hasType t := by
  rw [hw.perm_strata.mem_iff, FinSet.mem_toList, mem_types]

/-- Layers are made of all members, with all edges. -/
theorem among_census (hw : h.WellFormed) :
    Among (within (h.successors census) h.types) {u | u ∈ h.types} = h.Edge := by
  rw [among_within, among_successors, hw.regionStep_census]
  exact fun u ↦ mem_types.trans hw.region_census_iff.symm

/-- **The index of a member's stratum is its grade.** -/
theorem grade_of_placed (hw : h.WellFormed) (hc : h.Acyclic) (ht : Placed h.strata i t) :
    h.Grade i t := by
  have hu := hw.unhalted_census
  obtain ⟨stratum, hi, hmem⟩ := ht
  have hmember : h.hasType t :=
    hw.mem_strata_iff.1 (List.mem_flatten.2 ⟨stratum, List.mem_of_getElem? hi, hmem⟩)
  have hstuck : t ∉ (Layers.ofGraph (within (h.successors census) h.types) h.types).stuck := by
    rw [Layers.mem_stuck_iff_belowCycle, hw.among_census]
    rintro ⟨c, hcycle, -⟩
    exact hc c hcycle
  have hlevel := Layers.getElem?_levels_of_complete ((congrArg (·[i]?) hu.strata_eq).symm.trans hi)
    hmem hstuck
  have hmax := Layers.isGreatest_of_mem_levels hlevel hmem
  rw [hw.among_census] at hmax
  exact hw.grade_of_pathTo hmember hmax

theorem graded_strata (hw : h.WellFormed) (hc : h.Acyclic) : h.Graded h.strata :=
  .of_grade fun _ _ ↦ hw.grade_of_placed hc

theorem exists_grade (hw : h.WellFormed) (hc : h.Acyclic) (ht : h.hasType t) :
    ∃ n, h.Grade n t := by
  obtain ⟨stratum, hstratum, hmem⟩ := List.mem_flatten.1 (hw.mem_strata_iff.2 ht)
  obtain ⟨i, hi⟩ := List.mem_iff_getElem?.1 hstratum
  exact ⟨i, hw.grade_of_placed hc ⟨stratum, hi, hmem⟩⟩

/-- A member properly subsumes those that a path leads down to. -/
theorem transGen_of_properlySubsumes (hw : h.WellFormed) (hs : h.hasType s) (ht : h.hasType t)
    (hst : (h.inquireProperlySubsumes s t).answer h = true) : TransGen h.Edge s t := by
  obtain ⟨hsub, hne⟩ := answer_inquireProperlySubsumes_iff.1 hst
  rw [hw.answer_inquireSubsumes_iff hs ht, reflTransGen_iff_eq_or_transGen] at hsub
  exact hsub.resolve_left hne.symm

end WellFormed

/-! ## Sorting -/

/-- The distinct types of a list that are no members, in the order given. -/
def strangers (h : Hierarchy) (types : List Ty) : List Ty :=
  (FinSet.firsts types).filter fun t ↦ !h.hasType t

/-- The strata of a hierarchy, cut down to the types of a list, as far as any are left. -/
def memberStrata (h : Hierarchy) (types : List Ty) : List (List Ty) :=
  (h.strata.map (·.filter (· ∈ FinSet.ofList types))).filter fun stratum ↦ !stratum.isEmpty

theorem stratasort_eq : h.stratasort types =
    h.memberStrata types ++ if h.strangers types = [] then [] else [h.strangers types] := by
  rw [stratasort, List.filter_append]
  refine congrArg (h.memberStrata types ++ ·) ?_
  change [h.strangers types].filter _ = _
  by_cases hnone : h.strangers types = []
  · simp [hnone]
  · simp [hnone]

theorem WellFormed.hasType_of_mem_memberStrata (hw : h.WellFormed) {stratum : List Ty}
    (hstratum : stratum ∈ h.memberStrata types) (ht : t ∈ stratum) : h.hasType t := by
  obtain ⟨whole, hwhole, rfl⟩ := List.mem_map.1 (List.mem_filter.1 hstratum).1
  exact hw.mem_strata_iff.1 (List.mem_flatten.2 ⟨whole, hwhole, (List.mem_filter.1 ht).1⟩)

theorem not_hasType_of_mem_strangers (ht : t ∈ h.strangers types) : ¬ h.hasType t := by
  simpa using (List.mem_filter.1 ht).2

/-- **Sorting into strata keeps every type, once.** -/
theorem WellFormed.perm_stratasort (hw : h.WellFormed) (types : List Ty) :
    (h.stratasort types).flatten.Perm (FinSet.firsts types) := by
  have hmembers : (h.memberStrata types).flatten.Perm
      ((FinSet.firsts types).filter (h.hasType ·)) := by
    rw [memberStrata, List.flatten_filter_not_isEmpty, ← List.filter_flatten]
    have hnodup : h.strata.flatten.Nodup := hw.perm_strata.nodup_iff.2 h.types.nodup
    refine (List.perm_ext_iff_of_nodup (hnodup.filter _)
      ((FinSet.nodup_firsts types).filter _)).2 fun t ↦ ?_
    rw [List.mem_filter, List.mem_filter, hw.mem_strata_iff, decide_eq_true_eq, FinSet.mem_ofList,
      FinSet.mem_firsts, and_comm]
  have hstrangers : (if h.strangers types = [] then [] else [h.strangers types]).flatten =
      h.strangers types := by
    split
    · rename_i hnone
      rw [hnone, List.flatten_nil]
    · exact List.flatten_singleton
  rw [stratasort_eq, List.flatten_append, hstrangers]
  exact (hmembers.append_right _).trans (List.filter_append_perm _ _)

/-- Sorted types are graded by strata. -/
theorem WellFormed.graded_stratasort (hw : h.WellFormed) (hc : h.Acyclic) (types : List Ty) :
    h.Graded (h.stratasort types) := by
  have hnone : ∀ t ∈ h.strangers types, ∀ n, ¬ h.Grade n t := fun t ht n hn ↦
    not_hasType_of_mem_strangers ht (hn.hasType hw)
  have hall := ((hw.graded_strata hc).map_filter (· ∈ FinSet.ofList types)).append_strangers hnone
  exact hall.sublist List.filter_sublist

/-- Strata of members come before one of strangers. -/
theorem lt_of_placed {members last : List (List Ty)}
    (hmembers : ∀ stratum ∈ members, ∀ t ∈ stratum, h.hasType t)
    (hlast : ∀ stratum ∈ last, ∀ t ∈ stratum, ¬ h.hasType t)
    (hs : Placed (members ++ last) i s) (ht : Placed (members ++ last) j t) (hmem : h.hasType s)
    (hnot : ¬ h.hasType t) : i < j := by
  obtain ⟨earlier, hi, hs⟩ := hs
  obtain ⟨later, hj, ht⟩ := ht
  have hlt : i < members.length := by
    by_contra hge
    rw [List.getElem?_append_right (Nat.le_of_not_lt hge)] at hi
    exact hlast earlier (List.mem_of_getElem? hi) s hs hmem
  have hle : members.length ≤ j := by
    by_contra hgt
    rw [List.getElem?_append_left (Nat.lt_of_not_le hgt)] at hj
    exact hnot (hmembers later (List.mem_of_getElem? hj) t ht)
  exact Nat.lt_of_lt_of_le hlt hle

/-- **Types are sorted into strata by grade.** No stratum is empty, and together they hold every
type given, once. The strata of members come first; the types that are no members, reserved values
among them, are one stratum in the order given. In a hierarchy without cycles all members have a
grade, and the stratum of one member is before that of another exactly if its grade is lower.
Members in one stratum are incomparable, and a member never comes in the same stratum as a type that
it properly subsumes, or in a later one. -/
theorem Grown.stratasort_by_grade (hg : h.Grown) (types : List Ty) :
    let strata := h.stratasort types
    let others := (FinSet.firsts types).filter fun t ↦ !h.hasType t
    [] ∉ strata ∧ strata.flatten.Perm (FinSet.firsts types) ∧
    (∃ members : List (List Ty), (∀ stratum ∈ members, ∀ t ∈ stratum, h.hasType t) ∧
      strata = members ++ if others = [] then [] else [others]) ∧
    (∀ t ∈ types, t.isReserved → t ∈ others) ∧
    (h.Acyclic →
      (∀ t ∈ types, h.hasType t → ∃ n, IsGreatest {n | PathFrom (· = h.root) h.Edge n t} n) ∧
      (∀ i j s t, Placed strata i s → Placed strata j t → h.hasType s → h.hasType t →
        ∀ m n, IsGreatest {n | PathFrom (· = h.root) h.Edge n s} m →
          IsGreatest {n | PathFrom (· = h.root) h.Edge n t} n → (i < j ↔ m < n)) ∧
      (∀ stratum ∈ strata, ∀ s ∈ stratum, ∀ t ∈ stratum, h.hasType s → h.hasType t → s ≠ t →
        (h.compareTypes s t).answer h = none) ∧
      ∀ i j s t, Placed strata i s → Placed strata j t → h.hasType s →
        (h.inquireProperlySubsumes s t).answer h = true → i < j) := by
  have hw : h.WellFormed := hg.wellFormed
  intro strata others
  refine ⟨fun hnil ↦ ?_, hw.perm_stratasort types,
    ⟨_, fun _ hstratum _ ht ↦ hw.hasType_of_mem_memberStrata hstratum ht, stratasort_eq⟩,
    fun t ht hreserved ↦ ?_, fun hc ↦ ?_⟩
  · cases (List.mem_filter.1 hnil).2
  · have hnot : ¬ h.hasType t := hw.not_hasType_of_isReserved hreserved
    exact List.mem_filter.2 ⟨FinSet.mem_firsts.2 ht, by simpa using hnot⟩
  have hgraded : h.Graded strata := hw.graded_stratasort hc types
  have hlower : ∀ {s t m n}, h.hasType s → h.hasType t → h.Grade m s → h.Grade n t →
      (h.inquireProperlySubsumes s t).answer h = true → m < n := fun hs ht hm hn hst ↦
    hm.lt_of_transGen hn (hw.transGen_of_properlySubsumes hs ht hst)
  refine ⟨fun t _ ht ↦ hw.exists_grade hc ht,
    fun i j s t hi hj _ _ m n hm hn ↦ hgraded.lt_iff hi hj hm hn,
    fun stratum hstratum s hs t ht hmems hmemt hne ↦ ?_, fun i j s t hi hj hmems hst ↦ ?_⟩
  · obtain ⟨m, hm⟩ := hw.exists_grade hc hmems
    obtain ⟨n, hn⟩ := hw.exists_grade hc hmemt
    have heq : m = n := hgraded.same stratum hstratum s hs t ht m n hm hn
    rw [answer_compareTypes, if_neg hne, if_neg, if_neg]
    · exact fun hts ↦ (hlower hmemt hmems hn hm hts).ne heq.symm
    · exact fun hst ↦ (hlower hmems hmemt hm hn hst).ne heq
  · by_cases hmemt : h.hasType t
    · obtain ⟨m, hm⟩ := hw.exists_grade hc hmems
      obtain ⟨n, hn⟩ := hw.exists_grade hc hmemt
      exact (hgraded.lt_iff hi hj hm hn).2 (hlower hmems hmemt hm hn hst)
    · -- only the top value is properly subsumed without being a member, and it is a stranger
      have hsplit : strata = _ := stratasort_eq
      rw [hsplit] at hi hj
      refine lt_of_placed (fun _ hstratum _ ht ↦ hw.hasType_of_mem_memberStrata hstratum ht)
        (fun stratum hstratum u hu ↦ ?_) hi hj hmems hmemt
      split at hstratum
      · cases hstratum
      · rw [List.mem_singleton.1 hstratum] at hu
        exact not_hasType_of_mem_strangers hu

/-- A short path and a long one lead to `c`, and a type beside them. -/
def shortcut : Hierarchy :=
  [.add "a" [], .add "b" ["a"], .add "c" ["a", "b"], .add "d" []].foldl
    (fun h r ↦ (h.serve {} r).value.1) (Hierarchy.new "r")

theorem grown_shortcut : shortcut.Grown := by
  refine Grown.foldl_serve (.new "r") {} ?_
  simp [Request.sources]

theorem acyclic_shortcut : shortcut.Acyclic :=
  grown_shortcut.wellFormed.mirrored.acyclic_iff.2 (by decide +kernel)

/-- The stratum of `b` is dropped, and `c` still comes after `a` and `d`. -/
theorem stratasort_by_grade_shortcut :
    shortcut.Grown ∧ shortcut.Acyclic ∧
    shortcut.stratasort [.top, .named "c", .named "z", .named "d", .named "a", .named "c",
      .undefined] = [[.named "a", .named "d"], [.named "c"], [.top, .named "z", .undefined]] ∧
    (shortcut.compareTypes (.named "a") (.named "d")).answer shortcut = none ∧
    ∀ m n, IsGreatest {n | PathFrom (· = shortcut.root) shortcut.Edge n (.named "d")} m →
      IsGreatest {n | PathFrom (· = shortcut.root) shortcut.Edge n (.named "c")} n → m < n := by
  have hstrata : shortcut.stratasort [.top, .named "c", .named "z", .named "d", .named "a",
      .named "c", .undefined] =
        [[.named "a", .named "d"], [.named "c"], [.top, .named "z", .undefined]] := by
    decide +kernel
  obtain ⟨-, -, -, -, hacyclic⟩ := grown_shortcut.stratasort_by_grade [.top, .named "c", .named "z",
    .named "d", .named "a", .named "c", .undefined]
  obtain ⟨-, horder, hapart, -⟩ := hacyclic acyclic_shortcut
  rw [hstrata] at horder hapart
  refine ⟨grown_shortcut, acyclic_shortcut, hstrata, ?_, fun m n hm hn ↦ ?_⟩
  · exact hapart _ List.mem_cons_self _ (by decide) _ (by decide) (by decide) (by decide)
      (by decide)
  · exact (horder 0 1 (.named "d") (.named "c") ⟨_, rfl, by decide⟩ ⟨_, rfl, by decide⟩ (by decide)
      (by decide) m n hm hn).1 Nat.zero_lt_one

end Taxonomy.Hierarchy
