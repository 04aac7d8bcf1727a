import Mathlib.Logic.Relation
import Mathlib.Order.WellFoundedSet
import Taxonomy.Walk.Layers

/-!
# What peeling leaves over

A type is taken away once no predecessor of it is left. So a set of types that each have a
predecessor in the set is never touched (`Sustained`), and as peeling ends when every type left has
a predecessor left, what is stuck is the largest such set (`mem_stuck_iff`). In a finite graph these
are the types on or below a cycle (`mem_stuck_iff_belowCycle`).

That rests on the counts: what a type waits for is at any time the number of its predecessors that
are left (`Waiting.Tallied`), so that taking predecessors away never makes a count negative.

Layers are taken away whole. Neither the counts nor what is left in the end depend on that, so both
are shown for any order in which ready types may be taken away (`Waiting.Peels`).
-/

open Relation

namespace Taxonomy

variable {successors : Ty → FinSet Ty} {types : FinSet Ty} {t : Ty} {s : Set Ty}
  {nodes done rest later last : List Waiting} {r r' : Ty → Ty → Prop}

/-- What belongs to a finite set is finite. -/
theorem FinSet.finite_of_forall_mem {α : Type} [Ord α] [Std.TransOrd α] [Std.LawfulEqOrd α]
    {s : Set α} (members : FinSet α) (hs : ∀ a ∈ s, a ∈ members) : s.Finite :=
  members.toList.finite_toSet.subset fun a ha ↦ FinSet.mem_toList.2 (hs a ha)

/-- An edge between two types of a set. -/
def Among (successors : Ty → FinSet Ty) (s : Set Ty) (a b : Ty) : Prop :=
  a ∈ s ∧ b ∈ s ∧ b ∈ successors a

/-- The type is on a cycle, or a path leads from a cycle to it. -/
def BelowCycle (r : Ty → Ty → Prop) (t : Ty) : Prop := ∃ c, TransGen r c c ∧ ReflTransGen r c t

/-- Each type of the set has a predecessor in the set. -/
def Sustained (successors : Ty → FinSet Ty) (s : Set Ty) : Prop :=
  ∀ t ∈ s, ∃ p ∈ s, t ∈ successors p

/-! ## Cycles -/

namespace BelowCycle

theorem mono (hr : ∀ a b, r a b → r' a b) (ht : BelowCycle r t) : BelowCycle r' t := by
  obtain ⟨c, hcycle, hpath⟩ := ht
  exact ⟨c, TransGen.mono hr c c hcycle, ReflTransGen.mono hr c t hpath⟩

theorem tail {p : Ty} (hp : BelowCycle r p) (hpt : r p t) : BelowCycle r t := by
  obtain ⟨c, hcycle, hpath⟩ := hp
  exact ⟨c, hcycle, hpath.tail hpt⟩

theorem exists_edge (ht : BelowCycle r t) : ∃ p, BelowCycle r p ∧ r p t := by
  obtain ⟨c, hcycle, hpath⟩ := ht
  obtain ⟨p, hp, hpt⟩ := TransGen.tail'_iff.1 (hcycle.trans_left hpath)
  exact ⟨p, ⟨c, hcycle, hp⟩, hpt⟩

end BelowCycle

/-- A finite sustained set has only types on or below its cycles. -/
theorem Sustained.belowCycle (hs : Sustained successors s) (hfinite : s.Finite) (ht : t ∈ s) :
    BelowCycle (Among successors s) t := by
  by_contra hnone
  -- otherwise a type would be first among those above `t`, though it has a predecessor above it
  let below : Ty → Ty → Prop := fun u v ↦
    TransGen (Among successors s) u v ∧ ReflTransGen (Among successors s) v t
  have : IsStrictOrder Ty below :=
    { irrefl := fun c hc ↦ hnone ⟨c, hc⟩
      trans := fun _ _ _ huv hvw ↦ ⟨huv.1.trans hvw.1, hvw.2⟩ }
  have hwf : s.WellFoundedOn below := hfinite.wellFoundedOn
  refine hwf.induction (P := fun u ↦ ¬ ReflTransGen (Among successors s) u t) ht
    (fun u hu ih hut ↦ ?_) .refl
  obtain ⟨p, hp, hpu⟩ := hs u hu
  exact ih p hp ⟨.single ⟨hp, hu, hpu⟩, hut⟩ (.head ⟨hp, hu, hpu⟩ hut)

namespace Waiting

/-- Each type left comes with its successors and with the number of its predecessors left. -/
structure Tallied (successors : Ty → FinSet Ty) (nodes : List Waiting) : Prop where
  successors_eq : ∀ node ∈ nodes, node.successors = successors node.type
  pending_eq : ∀ node ∈ nodes, node.pending = node.discount nodes

/-- A type waits for less once others are taken away. -/
def lower (done : List Waiting) (node : Waiting) : Waiting :=
  { node with pending := node.pending - node.discount done }

/-- Some ready types are taken away, be it one of them or all. -/
inductive Peels (nodes : List Waiting) : List Waiting → Prop
  | away {done rest : List Waiting} (hsplit : nodes.Perm (done ++ rest))
      (hready : ∀ node ∈ done, node.pending = 0) (hsome : done ≠ []) :
      Peels nodes (rest.map (lower done))

theorem types_map_lower : (rest.map (lower done)).map type = rest.map type := by
  rw [List.map_map]
  rfl

/-- A type is ready or waits for something. -/
theorem perm_ready (nodes : List Waiting) :
    nodes.Perm (ready nodes ++ nodes.filter fun node ↦ node.pending ≠ 0) := by
  simp only [ready, ne_eq, decide_not]
  exact (List.filter_append_perm _ nodes).symm

theorem types_peel (nodes : List Waiting) :
    (peel nodes).map type = (nodes.filter fun node ↦ node.pending ≠ 0).map type :=
  types_map_lower

theorem types_initial : (initial successors types).map type = types.toList := by
  rw [initial, List.map_map, List.map_map]
  exact List.map_id _

theorem tallied_initial : Tallied successors (initial successors types) where
  successors_eq node hnode := by
    obtain ⟨edge, hedge, rfl⟩ := List.mem_map.1 hnode
    obtain ⟨t, -, rfl⟩ := List.mem_map.1 hedge
    rfl
  pending_eq node hnode := by
    obtain ⟨edge, -, rfl⟩ := List.mem_map.1 hnode
    rw [discount, initial, List.countP_map]
    rfl

namespace Tallied

/-- A type waits for something exactly if a predecessor is left. -/
theorem pending_ne_zero_iff (hn : Tallied successors nodes) {node : Waiting}
    (hnode : node ∈ nodes) : node.pending ≠ 0 ↔ ∃ p ∈ nodes.map type, node.type ∈ successors p := by
  rw [hn.pending_eq node hnode, discount, Nat.ne_zero_iff_zero_lt, List.countP_pos_iff]
  constructor
  · rintro ⟨other, hother, hmem⟩
    refine ⟨other.type, List.mem_map_of_mem hother, ?_⟩
    rwa [decide_eq_true_eq, hn.successors_eq other hother] at hmem
  · rintro ⟨p, hp, hmem⟩
    obtain ⟨other, hother, rfl⟩ := List.mem_map.1 hp
    refine ⟨other, hother, ?_⟩
    rwa [decide_eq_true_eq, hn.successors_eq other hother]

/-- What a type waits for is taken away or left. -/
theorem pending_eq_add (hn : Tallied successors nodes) (hsplit : nodes.Perm (done ++ rest))
    {node : Waiting} (hnode : node ∈ nodes) :
    node.pending = node.discount done + node.discount rest := by
  rw [hn.pending_eq node hnode, discount, hsplit.countP_eq, List.countP_append]
  rfl

/-- Taking types away keeps the counts right. -/
theorem map_lower (hn : Tallied successors nodes) (hsplit : nodes.Perm (done ++ rest)) :
    Tallied successors (rest.map (lower done)) where
  successors_eq node hnode := by
    obtain ⟨old, hold, rfl⟩ := List.mem_map.1 hnode
    exact hn.successors_eq old (hsplit.mem_iff.2 (List.mem_append_right done hold))
  pending_eq node hnode := by
    obtain ⟨old, hold, rfl⟩ := List.mem_map.1 hnode
    have hpending := hn.pending_eq_add hsplit (hsplit.mem_iff.2 (List.mem_append_right done hold))
    have hrest : old.discount (rest.map (lower done)) = old.discount rest := by
      rw [discount, List.countP_map]
      rfl
    change old.pending - old.discount done = old.discount (rest.map (lower done))
    rw [hrest]
    omega

theorem peel (hn : Tallied successors nodes) : Tallied successors (Waiting.peel nodes) :=
  hn.map_lower (perm_ready nodes)

/-- The types left after peeling are those that a predecessor is left of. -/
theorem mem_types_peel (hn : Tallied successors nodes) :
    t ∈ (Waiting.peel nodes).map type ↔
      t ∈ nodes.map type ∧ ∃ p ∈ nodes.map type, t ∈ successors p := by
  rw [types_peel]
  constructor
  · intro ht
    obtain ⟨node, hnode, rfl⟩ := List.mem_map.1 ht
    obtain ⟨hmem, hpending⟩ := List.mem_filter.1 hnode
    rw [decide_eq_true_eq] at hpending
    exact ⟨List.mem_map_of_mem hmem, (hn.pending_ne_zero_iff hmem).1 hpending⟩
  · rintro ⟨ht, hpred⟩
    obtain ⟨node, hnode, rfl⟩ := List.mem_map.1 ht
    refine List.mem_map_of_mem (List.mem_filter.2 ⟨hnode, ?_⟩)
    rw [decide_eq_true_eq]
    exact (hn.pending_ne_zero_iff hnode).2 hpred

/-- Peeling ends when all types left have a predecessor left. -/
theorem sustained_of_ready_eq_nil (hn : Tallied successors nodes) (hready : ready nodes = []) :
    Sustained successors {t | t ∈ nodes.map type} := by
  intro t ht
  obtain ⟨node, hnode, rfl⟩ := List.mem_map.1 ht
  refine (hn.pending_ne_zero_iff hnode).1 fun hzero ↦ ?_
  have hmem : node ∈ ready nodes := List.mem_filter.2 ⟨hnode, decide_eq_true hzero⟩
  rw [hready] at hmem
  cases hmem

end Tallied

/-! ## Peeling in any order -/

/-- As long as a type is ready, peeling goes on. -/
theorem peels_peel (hready : ready nodes ≠ []) : Peels nodes (peel nodes) :=
  .away (perm_ready nodes) (fun _ hnode ↦ of_decide_eq_true (List.mem_filter.1 hnode).2) hready

namespace Peels

/-- Peeling in any order comes to an end. -/
theorem length_lt (hp : Peels nodes later) : later.length < nodes.length := by
  obtain ⟨hsplit, -, hsome⟩ := hp
  rw [List.length_map, hsplit.length_eq, List.length_append]
  exact Nat.lt_add_of_pos_left (List.length_pos_iff.2 hsome)

theorem tallied (hp : Peels nodes later) (hn : Tallied successors nodes) :
    Tallied successors later := by
  obtain ⟨hsplit, -, -⟩ := hp
  exact hn.map_lower hsplit

/-- Nothing is taken away that has a predecessor left. -/
theorem subset_iff (hp : Peels nodes later) (hn : Tallied successors nodes)
    (hs : Sustained successors s) :
    (∀ u ∈ s, u ∈ later.map type) ↔ ∀ u ∈ s, u ∈ nodes.map type := by
  obtain @⟨done, rest, hsplit, hready, -⟩ := hp
  have htypes : ∀ u, u ∈ nodes.map type ↔ u ∈ done.map type ∨ u ∈ rest.map type := fun u ↦ by
    rw [(hsplit.map type).mem_iff, List.map_append, List.mem_append]
  rw [types_map_lower]
  refine ⟨fun hrest u hu ↦ (htypes u).2 (.inr (hrest u hu)), fun hall u hu ↦ ?_⟩
  refine ((htypes u).1 (hall u hu)).resolve_left fun hdone ↦ ?_
  obtain ⟨node, hnode, rfl⟩ := List.mem_map.1 hdone
  obtain ⟨p, hp, hmem⟩ := hs node.type hu
  exact (hn.pending_ne_zero_iff (hsplit.mem_iff.2 (List.mem_append_left rest hnode))).2
    ⟨p, hall p hp, hmem⟩ (hready node hnode)

end Peels

namespace Tallied

/-- What one step keeps, peeling keeps. -/
theorem of_peels (hn : Tallied successors nodes) (hrun : ReflTransGen Peels nodes last) :
    Tallied successors last := by
  induction hrun with
  | refl => exact hn
  | tail _ hlast ih => exact hlast.tallied ih

theorem subset_iff_of_peels (hn : Tallied successors nodes) (hrun : ReflTransGen Peels nodes last)
    (hs : Sustained successors s) :
    (∀ u ∈ s, u ∈ last.map type) ↔ ∀ u ∈ s, u ∈ nodes.map type := by
  induction hrun with
  | refl => rfl
  | tail hrun hlast ih => rw [hlast.subset_iff (hn.of_peels hrun) hs, ih]

/-- **The types left when peeling ends** are the largest sustained set of those it began with, in
whatever order types were taken away. -/
theorem mem_types_iff_of_peels (hn : Tallied successors nodes)
    (hrun : ReflTransGen Peels nodes last) (hready : ready last = []) :
    t ∈ last.map type ↔
      ∃ s : Set Ty, t ∈ s ∧ (∀ u ∈ s, u ∈ nodes.map type) ∧ Sustained successors s := by
  constructor
  · intro ht
    have hs : Sustained successors {t | t ∈ last.map type} :=
      (hn.of_peels hrun).sustained_of_ready_eq_nil hready
    exact ⟨_, ht, (hn.subset_iff_of_peels hrun hs).1 fun _ hu ↦ hu, hs⟩
  · rintro ⟨s, ht, hmem, hs⟩
    exact (hn.subset_iff_of_peels hrun hs).2 hmem t ht

end Tallied

end Waiting

namespace Layers

open Waiting

/-- Peeling layer by layer is peeling until nothing is ready. -/
theorem exists_peels_ofWaiting {fuel : Nat} (hfuel : nodes.length ≤ fuel) :
    ∃ last, ReflTransGen Peels nodes last ∧ ready last = [] ∧
      (ofWaiting fuel nodes).stuck = last.map type := by
  induction fuel generalizing nodes with
  | zero =>
    obtain rfl : nodes = [] := List.eq_nil_of_length_eq_zero (Nat.le_zero.1 hfuel)
    exact ⟨[], .refl, rfl, rfl⟩
  | succ fuel ih =>
    rw [ofWaiting]
    split
    · rename_i hready
      exact ⟨nodes, .refl, hready, rfl⟩
    · rename_i hready
      have hstep : Peels nodes (peel nodes) := peels_peel hready
      obtain ⟨last, hrun, hlast, hstuck⟩ :=
        ih (Nat.le_of_lt_succ (hstep.length_lt.trans_le hfuel))
      exact ⟨last, hrun.head hstep, hlast, hstuck⟩

/-- A graph is peeled until nothing is ready. -/
theorem exists_peels_ofGraph (successors : Ty → FinSet Ty) (types : FinSet Ty) :
    ∃ last, ReflTransGen Peels (initial successors types) last ∧ ready last = [] ∧
      (ofGraph successors types).stuck = last.map type := by
  refine exists_peels_ofWaiting (Nat.le_of_eq ?_)
  rw [← List.length_map type, types_initial, FinSet.length_toList]

/-- **What is stuck is the largest sustained set.** -/
theorem mem_stuck_iff :
    t ∈ (ofGraph successors types).stuck ↔
      ∃ s : Set Ty, t ∈ s ∧ (∀ u ∈ s, u ∈ types) ∧ Sustained successors s := by
  obtain ⟨last, hrun, hready, hstuck⟩ := exists_peels_ofGraph successors types
  rw [hstuck, tallied_initial.mem_types_iff_of_peels hrun hready, types_initial]
  simp only [FinSet.mem_toList]

/-- **What is stuck** are the types on or below a cycle. -/
theorem mem_stuck_iff_belowCycle :
    t ∈ (ofGraph successors types).stuck ↔ BelowCycle (Among successors {u | u ∈ types}) t := by
  rw [mem_stuck_iff]
  constructor
  · rintro ⟨s, ht, hmem, hs⟩
    have hfinite : s.Finite := types.finite_of_forall_mem hmem
    exact (hs.belowCycle hfinite ht).mono fun a b hab ↦ ⟨hmem a hab.1, hmem b hab.2.1, hab.2.2⟩
  · intro ht
    refine ⟨{u | BelowCycle (Among successors {u | u ∈ types}) u}, ht, fun u hu ↦ ?_,
      fun u hu ↦ ?_⟩
    · obtain ⟨p, -, hpu⟩ := hu.exists_edge
      exact hpu.2.1
    · obtain ⟨p, hp, hpu⟩ := hu.exists_edge
      exact ⟨p, hp, hpu.2.2⟩

end Layers

end Taxonomy
