import Mathlib.Data.List.Cycle
import Mathlib.Data.List.TFAE
import Taxonomy.Proofs.Hierarchy.Acyclic
import Taxonomy.Proofs.Hierarchy.Grown

/-!
# Closures and cycles

Whether one type is above another is found out in four ways: by all that is above the one, by all
that is below the other, and by searches for a single type in both directions. They agree, as each
follows the same paths (`Grown.closures_follow_paths`).

A path that leads back to where it began need not be a cycle, for it may pass a type more than once.
Cutting out what lies between two visits to a type leaves a cycle that passes no type twice
(`onCycle_iff`). So a type is in its own closure exactly if it is `OnCycle`.

That is not what peeling looks for. It leaves over the types on cycles and all below them, and these
do not depend on which of several ready types is taken away first. At each point of it a type waits
for those of its parents that are left, hence for no less than are about to be taken away
(`Grown.peeling_leaves_cycles`).
-/

open Relation

namespace Taxonomy

variable {r : Ty → Ty → Prop} {a b t : Ty}

/-! ## Cycles -/

/-- The type is on a cycle that passes no type twice. -/
def OnCycle (r : Ty → Ty → Prop) (t : Ty) : Prop :=
  ∃ cycle : Cycle Ty, cycle.Nodup ∧ cycle.Chain r ∧ t ∈ cycle

/-- Where a path leads, a path leads that passes no type twice. -/
theorem exists_nodup_path (hp : ReflTransGen r a b) :
    ∃ path : List Ty, path.head? = some a ∧ path.getLast? = some b ∧ path.IsChain r ∧
      path.Nodup := by
  induction hp using ReflTransGen.head_induction_on with
  | refl => exact ⟨[b], rfl, rfl, List.isChain_singleton b, List.nodup_singleton b⟩
  | @head a c hac _ ih =>
    obtain ⟨path, hhead, hlast, hchain, hnodup⟩ := ih
    by_cases ha : a ∈ path
    · -- what leads from `a` back to `a` is left out
      obtain ⟨before, after, rfl⟩ := List.append_of_mem ha
      refine ⟨a :: after, rfl, ?_, hchain.right_of_append, hnodup.of_append_right⟩
      rwa [List.getLast?_append_of_ne_nil _ (List.cons_ne_nil a after)] at hlast
    · refine ⟨a :: path, rfl, ?_, List.isChain_cons.2 ⟨fun y hy ↦ ?_, hchain⟩,
        List.nodup_cons.2 ⟨ha, hnodup⟩⟩
      · rw [List.getLast?_cons, hlast]
        rfl
      · rw [hhead] at hy
        exact Option.some.inj hy ▸ hac

/-- **A type is on a cycle** if a path leads from it to itself. -/
theorem onCycle_iff : OnCycle r t ↔ TransGen r t t := by
  constructor
  · rintro ⟨cycle, -, hchain, ht⟩
    have hpath : cycle.Chain (TransGen r) := hchain.imp fun _ _ ↦ .single
    exact Cycle.chain_iff_pairwise.1 hpath t ht t ht
  · intro hp
    obtain ⟨b, htb, hbt⟩ := TransGen.head'_iff.1 hp
    obtain ⟨path, hhead, hlast, hchain, hnodup⟩ := exists_nodup_path hbt
    obtain ⟨before, rfl⟩ := List.getLast?_eq_some_iff.1 hlast
    refine ⟨(t :: before : List Ty), ?_, ?_, ?_⟩
    · rw [Cycle.nodup_coe_iff]
      exact (List.perm_append_singleton t before).nodup_iff.1 hnodup
    · rw [Cycle.chain_coe_cons, List.isChain_cons]
      refine ⟨fun y hy ↦ ?_, hchain⟩
      rw [hhead] at hy
      exact Option.some.inj hy ▸ htb
    · rw [Cycle.mem_coe_iff]
      exact List.mem_cons_self

namespace Hierarchy

variable {h : Hierarchy} {nodes : List Waiting}

/-! ## Closures -/

namespace Mirrored

theorem hasAncestor_iff (hm : h.Mirrored) : h.hasAncestor t a ↔ TransGen h.Edge a t := by
  rw [hasAncestor, reaches_iff hm, hm.transGen_step_up_iff]

/-- A type is above itself if it is on a cycle. -/
theorem mem_ancestors_self_iff (hm : h.Mirrored) : t ∈ h.ancestors t ↔ OnCycle h.Edge t := by
  rw [mem_ancestors_iff hm, onCycle_iff]

end Mirrored

/-- **Closures follow paths.** That `t` is among the descendants of `a`, that `a` is among the
ancestors of `t`, and that a search from either finds the other, all say that both are members and
that a path of at least one child edge leads from `a` to `t`. A type is in its own closures if it is
on a cycle. -/
theorem Grown.closures_follow_paths (hg : h.Grown) (a t : Ty) :
    List.TFAE [
      t ∈ h.descendants a,
      a ∈ h.ancestors t,
      h.hasDescendant a t = true,
      h.hasAncestor t a = true,
      h.hasType a = true ∧ h.hasType t = true ∧ TransGen h.Edge a t] ∧
    (t ∈ h.descendants t ↔ OnCycle h.Edge t) ∧
    (t ∈ h.ancestors t ↔ OnCycle h.Edge t) := by
  have hm : h.Mirrored := hg.wellFormed.mirrored
  refine ⟨?_, ?_, hm.mem_ancestors_self_iff⟩
  · have hmembers : TransGen h.Edge a t ↔
        h.hasType a = true ∧ h.hasType t = true ∧ TransGen h.Edge a t := by
      refine ⟨fun hpath ↦ ?_, fun hpath ↦ hpath.2.2⟩
      obtain ⟨ha, ht⟩ := hm.hasType_of_transGen (d := .down) hpath
      exact ⟨ha, ht, hpath⟩
    tfae_have 1 ↔ 5 := (mem_descendants_iff hm).trans hmembers
    tfae_have 2 ↔ 5 := (mem_ancestors_iff hm).trans hmembers
    tfae_have 3 ↔ 5 := (reaches_iff hm).trans hmembers
    tfae_have 4 ↔ 5 := hm.hasAncestor_iff.trans hmembers
    tfae_finish
  · rw [mem_descendants_iff hm, onCycle_iff]

/-- On the cycle of a knot each type is its own ancestor, which the type below the cycle is not. -/
theorem closures_follow_paths_knot :
    knot.Grown ∧ .named "b" ∈ knot.ancestors (.named "b") ∧
    OnCycle knot.Edge (.named "b") ∧
    knot.hasAncestor (.named "c") (.named "a") = true ∧
    .named "c" ∈ knot.descendants (.named "a") ∧ .named "c" ∉ knot.ancestors (.named "c") ∧
    ¬ OnCycle knot.Edge (.named "c") := by
  obtain ⟨-, -, hb⟩ := grown_knot.closures_follow_paths (.named "a") (.named "b")
  obtain ⟨hac, -, hc⟩ := grown_knot.closures_follow_paths (.named "a") (.named "c")
  have hself : .named "b" ∈ knot.ancestors (.named "b") := by decide +kernel
  have hnone : .named "c" ∉ knot.ancestors (.named "c") := by decide +kernel
  have hbelow : knot.hasAncestor (.named "c") (.named "a") = true := by decide +kernel
  exact ⟨grown_knot, hself, hb.1 hself, hbelow, (hac.out 3 0).1 hbelow, hnone,
    fun hcycle ↦ hnone (hc.2 hcycle)⟩

/-! ## Peeling -/

/-- A hierarchy has been peeled so far that these types are left, whichever ready types were taken
away first. -/
def Peeled (h : Hierarchy) (nodes : List Waiting) : Prop :=
  ReflTransGen Waiting.Peels (Waiting.initial h.childrenOf h.types) nodes

namespace Mirrored

/-- A type waits for those of its parents that are left. -/
theorem pending_eq (hm : h.Mirrored) (hn : Waiting.Tallied h.childrenOf nodes) {node : Waiting}
    (hnode : node ∈ nodes) :
    node.pending = (nodes.map Waiting.type).countP (· ∈ h.parentsOf node.type) := by
  rw [hn.pending_eq node hnode, Waiting.discount, List.countP_map]
  refine List.countP_congr fun other hother ↦ ?_
  rw [hn.successors_eq other hother, Function.comp_apply, decide_eq_true_eq, decide_eq_true_eq,
    hm.mem_parentsOf_iff]
  rfl

/-- All parents of a member are members. -/
theorem countP_types (hm : h.Mirrored) :
    h.types.toList.countP (· ∈ h.parentsOf t) = (h.parentsOf t).size := by
  rw [← FinSet.length_toList, List.countP_eq_length_filter]
  refine ((List.perm_ext_iff_of_nodup (h.types.nodup.filter _) (h.parentsOf t).nodup).2
    fun p ↦ ?_).length_eq
  rw [List.mem_filter, FinSet.mem_toList, FinSet.mem_toList, mem_types, decide_eq_true_eq]
  exact and_iff_right_of_imp fun hp ↦ hm.hasType_left ((hm.mem_parentsOf_iff p t).1 hp)

theorem isCircular_iff_mem_ancestors (hm : h.Mirrored) :
    h.isCircular ↔ ∃ t, t ∈ h.ancestors t := by
  simp only [hm.isCircular_iff, mem_ancestors_iff hm]

/-- Of the types on and below cycles those are listed that are above themselves. -/
theorem mem_circularTypes_iff (hm : h.Mirrored) : t ∈ h.circularTypes ↔ t ∈ h.ancestors t := by
  rw [circularTypes, FinSet.mem_ofList, List.mem_filter, hm.hasAncestor_iff, mem_ancestors_iff hm,
    hm.mem_unpeelable_iff]
  exact and_iff_right_of_imp fun hcycle ↦ ⟨t, hcycle, .refl⟩

end Mirrored

/-- **Peeling leaves over what is on or below a cycle.** A hierarchy is circular if some type is its
own ancestor, and these are the types listed as circular. What cannot be peeled off are the types on
a cycle and those that a path leads to from a cycle, whichever ready types are taken away first. A
type waits for all its parents at first, peeling in any order comes to an end, and no type ever
waits for less than is taken away. -/
theorem Grown.peeling_leaves_cycles (hg : h.Grown) :
    (h.isCircular = true ↔ ∃ t, t ∈ h.ancestors t) ∧
    (∀ t, t ∈ h.circularTypes ↔ t ∈ h.ancestors t) ∧
    (∀ t, t ∈ h.unpeelable ↔
      ∃ c, OnCycle h.Edge c ∧ ReflTransGen h.Edge c t) ∧
    (∃ last, h.Peeled last ∧ Waiting.ready last = [] ∧
      h.unpeelable = last.map Waiting.type) ∧
    (∀ last, h.Peeled last → Waiting.ready last = [] →
      ∀ t, t ∈ last.map Waiting.type ↔ t ∈ h.unpeelable) ∧
    (∀ node ∈ Waiting.initial h.childrenOf h.types,
      node.pending = (h.parentsOf node.type).size) ∧
    ∀ nodes, h.Peeled nodes →
      (∀ later, Waiting.Peels nodes later → later.length < nodes.length) ∧
      (∀ node ∈ nodes,
        node.pending = (nodes.map Waiting.type).countP (· ∈ h.parentsOf node.type)) ∧
      ∀ done rest, nodes.Perm (done ++ rest) →
        ∀ node ∈ rest, node.discount done ≤ node.pending := by
  have hm : h.Mirrored := hg.wellFormed.mirrored
  have hn : Waiting.Tallied h.childrenOf (Waiting.initial h.childrenOf h.types) :=
    Waiting.tallied_initial
  refine ⟨hm.isCircular_iff_mem_ancestors, fun t ↦ hm.mem_circularTypes_iff, fun t ↦ ?_,
    Layers.exists_peels_ofGraph h.childrenOf h.types, fun last hrun hready t ↦ ?_,
    fun node hnode ↦ ?_, fun nodes hrun ↦ ⟨fun _ ↦ Waiting.Peels.length_lt,
      fun _ ↦ hm.pending_eq (hn.of_peels hrun), fun done rest hsplit node hnode ↦ ?_⟩⟩
  · simp only [hm.mem_unpeelable_iff, onCycle_iff]
  · rw [hn.mem_types_iff_of_peels hrun hready, unpeelable, Layers.mem_stuck_iff,
      Waiting.types_initial]
    simp only [FinSet.mem_toList]
  · rw [hm.pending_eq hn hnode, Waiting.types_initial, hm.countP_types]
  · rw [(hn.of_peels hrun).pending_eq_add hsplit
      (hsplit.mem_iff.2 (List.mem_append_right done hnode))]
    exact Nat.le_add_right _ _

/-- Two types of a knot are on its cycle and a third one is below, which leaves the root alone to be
peeled off. -/
theorem peeling_leaves_cycles_knot :
    knot.Grown ∧ knot.isCircular = true ∧
    .named "a" ∈ knot.circularTypes ∧ .named "c" ∉ knot.circularTypes ∧
    (∃ c, OnCycle knot.Edge c ∧ ReflTransGen knot.Edge c (.named "c")) ∧
    ∀ last, knot.Peeled last → Waiting.ready last = [] →
      .named "c" ∈ last.map Waiting.type ∧ .named "r" ∉ last.map Waiting.type := by
  obtain ⟨hcircular, htypes, hunpeelable, -, hleft, -, -⟩ := grown_knot.peeling_leaves_cycles
  have ha : .named "a" ∈ knot.ancestors (.named "a") := by decide +kernel
  have hc : .named "c" ∉ knot.ancestors (.named "c") := by decide +kernel
  have hbelow : .named "c" ∈ knot.unpeelable := by decide +kernel
  have hroot : .named "r" ∉ knot.unpeelable := by decide +kernel
  refine ⟨grown_knot, hcircular.2 ⟨_, ha⟩, (htypes _).2 ha, fun hmem ↦ hc ((htypes _).1 hmem),
    (hunpeelable _).1 hbelow, fun last hrun hready ↦ ⟨?_, fun hmem ↦ ?_⟩⟩
  · exact (hleft last hrun hready _).2 hbelow
  · exact hroot ((hleft last hrun hready _).1 hmem)

end Hierarchy

end Taxonomy
