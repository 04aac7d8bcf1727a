import Taxonomy.Fold
import Taxonomy.Proofs.Hierarchy.Acyclic
import Taxonomy.Proofs.Hierarchy.Bounds

/-!
# Determinism

Bounds of members are the extreme ones among all candidates. Where there is no cycle, each candidate
is reached from a bound (`Acyclic.exists_mem_bounds`), so that a bound that is the only one stands
for all candidates (`Acyclic.reflTransGen_iff_of_only_bound`).

A hierarchy is deterministic if no two members have several least upper bounds
(`WellFormed.answer_isDeterministic_iff`). Then they do not have several greatest lower bounds
either, and conversely (`Unambiguous.dual`): two members with several bounds of one kind are common
bounds of these, and a bound of these of the other kind that stood for all would lie between.
-/

open Relation

namespace Taxonomy

/-- The other kind of bounds. -/
def Bound.dual : Bound → Bound
  | leastUpper => greatestLower
  | greatestLower => leastUpper

theorem Bound.direction_dual (b : Bound) : b.dual.direction = b.direction.opposite := by
  cases b <;> rfl

@[simp] theorem Bound.dual_dual (b : Bound) : b.dual.dual = b := by
  cases b <;> rfl

namespace Hierarchy

variable {h : Hierarchy} {b : Bound} {d : Direction} {left right t w x y z : Ty}

/-! ## Bounds of members -/

theorem shared_iff (hleft : h.hasType left) (hright : h.hasType right) :
    h.Shared d left right t ↔ ReflTransGen (h.Step d) left t ∧ ReflTransGen (h.Step d) right t := by
  simp only [Shared, hleft, hright, and_true, reflTransGen_iff_eq_or_transGen, or_comm]

/-- Bounds of members are members. -/
theorem hasType_of_mem_bounds (hm : h.Mirrored) (hleft : h.hasType left) (hright : h.hasType right)
    (hw : w ∈ h.bounds b left right) : h.hasType w :=
  hm.hasType_of_reflTransGen hleft
    ((shared_iff hleft hright).1 ((mem_bounds_iff hm).1 hw).1).1

/-- A bound is a candidate that only itself among the candidates leads to. -/
theorem mem_bounds_iff_extreme (hm : h.Mirrored) :
    t ∈ h.bounds b left right ↔
      h.Shared b.direction left right t ∧ ∀ other, h.Shared b.direction left right other →
        ReflTransGen (h.Step b.direction) other t → other = t := by
  rw [mem_bounds_iff hm]
  refine and_congr_right fun _ ↦ forall₂_congr fun other _ ↦ ?_
  rw [reflTransGen_iff_eq_or_transGen]
  constructor
  · rintro hextreme (heq | hpath)
    · exact heq.symm
    · exact hextreme hpath
  · exact fun hextreme hpath ↦ hextreme (.inr hpath)

/-- The only bound of a type and itself is the type. On a cycle there may be none. -/
theorem eq_of_mem_bounds_self (hm : h.Mirrored) (ht : h.hasType t) (hx : x ∈ h.bounds b t t) :
    t = x := by
  obtain ⟨hshared, hextreme⟩ := (mem_bounds_iff_extreme hm).1 hx
  exact hextreme t ((shared_iff ht ht).2 ⟨.refl, .refl⟩) ((shared_iff ht ht).1 hshared).1

/-- **Bounds are complete.** Without cycles every candidate is reached from a bound. -/
theorem Acyclic.exists_mem_bounds (hc : h.Acyclic) (hm : h.Mirrored) (hleft : h.hasType left)
    (hright : h.hasType right) (hz : h.Shared b.direction left right z) :
    ∃ w ∈ h.bounds b left right, ReflTransGen (h.Step b.direction) w z := by
  have hmem : h.hasType z :=
    hm.hasType_of_reflTransGen hleft ((shared_iff hleft hright).1 hz).1
  induction hmem using hc.induction hm b.direction with
  | step z _ ih =>
    by_cases hbound : z ∈ h.bounds b left right
    · exact ⟨z, hbound, .refl⟩
    · -- then another candidate leads to `z`, and a bound to that one
      rw [mem_bounds_iff hm, not_and] at hbound
      have hother := hbound hz
      push Not at hother
      obtain ⟨other, hshared, hpath, -⟩ := hother
      obtain ⟨w, hw, hwother⟩ := ih other (hm.hasType_of_transGen hpath).1 hpath hshared
      exact ⟨w, hw, hwother.trans hpath.to_reflTransGen⟩

/-- **The only bound stands for all candidates.** -/
theorem Acyclic.reflTransGen_iff_of_only_bound (hc : h.Acyclic) (hm : h.Mirrored)
    (hleft : h.hasType left) (hright : h.hasType right)
    (honly : ∀ u, u ∈ h.bounds b left right ↔ u = w) :
    ReflTransGen (h.Step b.direction) w z ↔
      ReflTransGen (h.Step b.direction) left z ∧ ReflTransGen (h.Step b.direction) right z := by
  have hshared := ((mem_bounds_iff hm).1 ((honly w).2 rfl)).1
  obtain ⟨hleftw, hrightw⟩ := (shared_iff hleft hright).1 hshared
  constructor
  · exact fun hwz ↦ ⟨hleftw.trans hwz, hrightw.trans hwz⟩
  · intro hz
    obtain ⟨u, hu, huz⟩ := hc.exists_mem_bounds hm hleft hright ((shared_iff hleft hright).2 hz)
    rwa [(honly u).1 hu] at huz

/-! ## Unambiguous bounds -/

/-- No two members have several bounds of a kind. -/
def Unambiguous (h : Hierarchy) (b : Bound) : Prop :=
  ∀ left right, h.hasType left → h.hasType right →
    ∀ x ∈ h.bounds b left right, ∀ y ∈ h.bounds b left right, x = y

/-- A type and itself do not have several bounds, so it is enough to look at two types. -/
theorem Unambiguous.of_ne (hm : h.Mirrored)
    (hne : ∀ left right, h.hasType left → h.hasType right → left ≠ right →
      ∀ x ∈ h.bounds b left right, ∀ y ∈ h.bounds b left right, x = y) : h.Unambiguous b := by
  intro left right hleft hright
  by_cases heq : left = right
  · subst heq
    intro x hx y hy
    rw [← eq_of_mem_bounds_self hm hleft hx, ← eq_of_mem_bounds_self hm hleft hy]
  · exact hne left right hleft hright heq

/-- **Both kinds of bounds are ambiguous together.** -/
theorem Unambiguous.dual (hu : h.Unambiguous b) (hc : h.Acyclic) (hm : h.Mirrored) :
    h.Unambiguous b.dual := by
  intro left right hleft hright x hx y hy
  have hxmem : h.hasType x := hasType_of_mem_bounds hm hleft hright hx
  have hymem : h.hasType y := hasType_of_mem_bounds hm hleft hright hy
  rw [mem_bounds_iff_extreme hm, b.direction_dual] at hx hy
  obtain ⟨hxshared, hxextreme⟩ := hx
  obtain ⟨hyshared, hyextreme⟩ := hy
  rw [shared_iff hleft hright] at hxshared hyshared
  -- `left` and `right` are candidates for bounds of `x` and `y`, so one bound leads to both
  have hcandidate : ∀ {u}, ReflTransGen (h.Step b.direction.opposite) u x →
      ReflTransGen (h.Step b.direction.opposite) u y → h.Shared b.direction x y u := by
    intro u hux huy
    rw [hm.reflTransGen_opposite_iff] at hux huy
    exact (shared_iff hxmem hymem).2 ⟨hux, huy⟩
  obtain ⟨w, hw, hwleft⟩ :=
    hc.exists_mem_bounds hm hxmem hymem (hcandidate hxshared.1 hyshared.1)
  obtain ⟨w', hw', hwright⟩ :=
    hc.exists_mem_bounds hm hxmem hymem (hcandidate hxshared.2 hyshared.2)
  obtain rfl : w = w' := hu x y hxmem hymem w hw w' hw'
  obtain ⟨hxw, hyw⟩ := (shared_iff hxmem hymem).1 ((mem_bounds_iff hm).1 hw).1
  rw [← hm.reflTransGen_opposite_iff] at hwleft hwright hxw hyw
  have hwshared := (shared_iff hleft hright).2 ⟨hwleft, hwright⟩
  exact (hxextreme w hwshared hxw).symm.trans (hyextreme w hwshared hyw)

theorem unambiguous_dual_iff (hc : h.Acyclic) (hm : h.Mirrored) :
    h.Unambiguous b.dual ↔ h.Unambiguous b := by
  refine ⟨fun hu ↦ ?_, fun hu ↦ hu.dual hc hm⟩
  rw [← b.dual_dual]
  exact hu.dual hc hm

/-! ## Trees -/

theorem isTree_iff (hm : h.Mirrored) :
    h.isTree ↔ ∀ a b t, h.Edge a t → h.Edge b t → a = b := by
  simp only [isTree, List.all_eq_true, decide_eq_true_eq, FinSet.size_le_one_iff,
    hm.mem_parentsOf_iff, FinSet.mem_toList, mem_types]
  exact ⟨fun hone a b t ha hb ↦ hone t (hm.hasType_right ha) a ha b hb,
    fun hone t _ a ha b hb ↦ hone a b t ha hb⟩

/-- What two members of a tree share below, one of them leads to by way of the other. Cycles do not
matter. -/
theorem unambiguous_of_isTree (hm : h.Mirrored) (htree : h.isTree) :
    h.Unambiguous .leastUpper := by
  -- the more specific of the two is the only candidate that no other candidate leads to
  have hlower : ∀ {left right t}, h.hasType left → h.hasType right →
      ReflTransGen h.Edge left right → t ∈ h.bounds .leastUpper left right → t = right := by
    intro left right t hleft hright hpath ht
    obtain ⟨hshared, hextreme⟩ := (mem_bounds_iff_extreme hm).1 ht
    obtain ⟨-, hrightt⟩ := (shared_iff hleft hright).1 hshared
    exact (hextreme right ((shared_iff hleft hright).2 ⟨hpath, .refl⟩) hrightt).symm
  have hparent : Relator.RightUnique (h.Step .up) := fun t a b ha hb ↦
    (isTree_iff hm).1 htree a b t (hm.step_up_iff.1 ha) (hm.step_up_iff.1 hb)
  intro left right hleft hright x hx y hy
  obtain ⟨hleftx, hrightx⟩ := (shared_iff hleft hright).1 ((mem_bounds_iff_extreme hm).1 hx).1
  have htotal := ReflTransGen.total_of_right_unique hparent
    ((hm.reflTransGen_opposite_iff (d := .down)).2 hleftx)
    ((hm.reflTransGen_opposite_iff (d := .down)).2 hrightx)
  rcases htotal with hup | hup
  · have hpath := (hm.reflTransGen_opposite_iff (d := .down)).1 hup
    rw [bounds_comm hm] at hx hy
    rw [hlower hright hleft hpath hx, hlower hright hleft hpath hy]
  · have hpath := (hm.reflTransGen_opposite_iff (d := .down)).1 hup
    rw [hlower hleft hright hpath hx, hlower hleft hright hpath hy]

/-! ## The search for an ambiguous pair -/

theorem mem_of_mem_pairs {α : Type} {l : List α} {p : α × α} (hp : p ∈ pairs l) :
    p.1 ∈ l ∧ p.2 ∈ l := by
  induction l with
  | nil => cases hp
  | cons a rest ih =>
    rw [pairs, List.mem_append, List.mem_map] at hp
    rcases hp with ⟨b, hb, rfl⟩ | hp
    · exact ⟨List.mem_cons_self, List.mem_cons_of_mem a hb⟩
    · exact (ih hp).imp (List.mem_cons_of_mem a) (List.mem_cons_of_mem a)

/-- Two elements make a pair in one order or the other. -/
theorem mem_pairs_or {α : Type} {l : List α} {a b : α} (ha : a ∈ l) (hb : b ∈ l) (hne : a ≠ b) :
    (a, b) ∈ pairs l ∨ (b, a) ∈ pairs l := by
  induction l with
  | nil => cases ha
  | cons c rest ih =>
    simp only [pairs, List.mem_append, List.mem_map, Prod.mk.injEq]
    rcases List.mem_cons.1 ha with rfl | harest
    · rcases List.mem_cons.1 hb with rfl | hbrest
      · exact absurd rfl hne
      · exact .inl (.inl ⟨b, hbrest, rfl, rfl⟩)
    · rcases List.mem_cons.1 hb with rfl | hbrest
      · exact .inr (.inl ⟨a, harest, rfl, rfl⟩)
      · exact (ih harest hbrest).imp .inr .inr

theorem answer_ambiguousPair : h.ambiguousPair.answer h =
    if h.isTree then none
    else (pairs h.types.toList).find? fun p ↦ 1 < (h.bounds .leastUpper p.1 p.2).size := by
  rw [ambiguousPair]
  split
  · rfl
  · rw [Inquiry.answer_find?]
    simp only [Inquiry.answer, FinSet.length_toList]

/-- **A hierarchy is deterministic** if no two members have several least upper bounds. That trees
are passed over in the search makes no difference. -/
theorem answer_isDeterministic_iff (hm : h.Mirrored) :
    h.isDeterministic.answer h ↔ h.Unambiguous .leastUpper := by
  have hanswer : h.isDeterministic.answer h = (h.ambiguousPair.answer h).isNone :=
    Inquiry.answer_andThen ..
  rw [hanswer, answer_ambiguousPair]
  split
  · rename_i htree
    exact iff_of_true rfl (unambiguous_of_isTree hm htree)
  · simp only [Option.isNone_iff_eq_none, List.find?_eq_none, decide_eq_true_eq, not_lt,
      FinSet.size_le_one_iff]
    constructor
    · refine fun hpairs ↦ .of_ne hm fun left right hleft hright hne ↦ ?_
      have hmem : ∀ {t}, h.hasType t → t ∈ h.types.toList := fun ht ↦
        FinSet.mem_toList.2 (mem_types.2 ht)
      rcases mem_pairs_or (hmem hleft) (hmem hright) hne with hp | hp
      · exact hpairs (left, right) hp
      · rw [bounds_comm hm]
        exact hpairs (right, left) hp
    · intro hu p hp
      obtain ⟨hleft, hright⟩ := mem_of_mem_pairs hp
      rw [FinSet.mem_toList, mem_types] at hleft hright
      exact hu p.1 p.2 hleft hright

end Hierarchy

end Taxonomy
