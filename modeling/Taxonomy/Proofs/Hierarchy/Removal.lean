import Mathlib.Tactic.ByContra
import Taxonomy.Hierarchy.Edit
import Taxonomy.Proofs.Hierarchy.WellFormed

/-!
# Removing types

When a type `t` is removed, each of its children gets the parents of `t`. All in all an edge
remains if it does not touch `t`, and there is a new edge from `a` to `b` if a path led from `a` to
`b` by way of `t` alone (`edge_removeNode`). The one exception is that no type becomes its own
parent, which takes no path away.

A child that would be left without parents goes to the root. This never happens in a well-formed
hierarchy: it would take a type and a child of it that have no parents but each other, and no path
enters such a pair (`WellFormed.exists_other_parent`).

Paths between the types that stay are found again one edge at a time. The invariant of the induction
is that a path that stands at `t` can be followed in the new hierarchy up to a parent of `t`.
-/

open Relation

namespace Taxonomy.Hierarchy

variable {h k : Hierarchy} {a b c t u v : Ty} {parents : FinSet Ty}

/-! ## Handing one child over -/

theorem Rewired.handOver (hk : Rewired h k) (hroot : h.hasType h.root)
    (hparents : ∀ p ∈ parents, h.hasType p) (hc : h.hasType c) :
    Rewired h (Hierarchy.handOver t parents k c) := by
  have hlinked : Rewired h ((k.unlink t c).linkAll (parents.erase c) c) :=
    hk.unlink.linkAll (fun p hp ↦ hparents p (FinSet.mem_erase.1 hp).1) hc
  rw [Hierarchy.handOver]
  split
  · refine hlinked.link ?_ hc
    rwa [hlinked.root_eq]
  · exact hlinked

/-- A child that keeps some parent or gets one is not put below the root. -/
theorem edge_handOver (hm : h.Mirrored) (hparents : ∀ p ∈ parents, h.hasType p)
    (hc : h.hasType c) (hother : ∃ p, p ≠ t ∧ (h.Edge p c ∨ p ∈ parents ∧ p ≠ c)) :
    (handOver t parents h c).Edge a b ↔
      h.Edge a b ∧ ¬ (a = t ∧ b = c) ∨ (a ∈ parents ∧ a ≠ b) ∧ b = c := by
  let handed := (h.unlink t c).linkAll (parents.erase c) c
  have hedge : ∀ a b, handed.Edge a b ↔
      h.Edge a b ∧ ¬ (a = t ∧ b = c) ∨ (a ∈ parents ∧ a ≠ b) ∧ b = c := by
    intro a b
    rw [edge_linkAll, edge_unlink, FinSet.mem_erase]
    by_cases hb : b = c <;> simp [hb]
  have hrewired : Rewired h handed :=
    (Rewired.refl h).unlink.linkAll (fun p hp ↦ hparents p (FinSet.mem_erase.1 hp).1) hc
  have hmirrored : handed.Mirrored := hrewired.mirrored hm
  have hsome : ¬ (handed.parentsOf c).isEmpty := by
    rw [hmirrored.parentsOf_isEmpty_iff]
    obtain ⟨p, hpt, hp⟩ := hother
    refine fun hnone ↦ hnone p ((hedge p c).2 ?_)
    rcases hp with hp | hp
    · exact .inl ⟨hp, fun heq ↦ hpt heq.1⟩
    · exact .inr ⟨hp, rfl⟩
  rw [handOver, if_neg hsome]
  exact hedge a b

/-! ## Handing all children over -/

/-- Together the children exchange the edge from `t` for edges from its parents. -/
theorem edge_foldl_handOver {l : List Ty} (hm : h.Mirrored) (hroot : h.hasType h.root)
    (hparents : ∀ p ∈ parents, h.hasType p) (ht : t ∉ parents) (hl : ∀ c ∈ l, h.hasType c)
    (hother : ∀ c ∈ l, ∃ p, p ≠ t ∧ (h.Edge p c ∨ p ∈ parents ∧ p ≠ c)) :
    (l.foldl (handOver t parents) h).Edge a b ↔
      h.Edge a b ∧ ¬ (a = t ∧ b ∈ l) ∨ (a ∈ parents ∧ a ≠ b) ∧ b ∈ l := by
  induction l generalizing h with
  | nil => simp
  | cons c rest ih =>
    obtain ⟨hc, hrest⟩ := List.forall_mem_cons.1 hl
    obtain ⟨hotherc, hotherrest⟩ := List.forall_mem_cons.1 hother
    have hnext : Rewired h (handOver t parents h c) := (Rewired.refl h).handOver hroot hparents hc
    have hedge : ∀ a b, (handOver t parents h c).Edge a b ↔
        h.Edge a b ∧ ¬ (a = t ∧ b = c) ∨ (a ∈ parents ∧ a ≠ b) ∧ b = c := fun a b ↦
      edge_handOver hm hparents hc hotherc
    rw [List.foldl_cons, ih (hnext.mirrored hm) ?_ ?_ ?_ ?_, hedge, List.mem_cons]
    · -- `t` is no new parent, so an edge added for `c` is not taken away for another child
      by_cases ha : a = t
      · subst ha
        simp [ht, and_assoc]
      · simp [ha, and_or_left, or_assoc]
    · rw [hnext.root_eq, hnext.hasType_eq]
      exact hroot
    · intro p hp
      rw [hnext.hasType_eq]
      exact hparents p hp
    · intro d hd
      rw [hnext.hasType_eq]
      exact hrest d hd
    · intro d hd
      obtain ⟨p, hpt, hp⟩ := hotherrest d hd
      refine ⟨p, hpt, hp.imp_left fun he ↦ (hedge p d).2 (.inl ⟨he, ?_⟩)⟩
      exact fun heq ↦ hpt heq.1

/-! ## Removing one type -/

namespace WellFormed

/-- A type and a child of it have a parent besides each other. -/
theorem exists_other_parent (hw : h.WellFormed) (ht : h.hasType t) (hroot : t ≠ h.root)
    (he : h.Edge t c) : ∃ p, p ≠ t ∧ p ≠ c ∧ (h.Edge p c ∨ h.Edge p t) := by
  by_contra hnone
  -- a path from the root enters neither of the two, as it would come from a parent of one of them
  have houtside : ∀ u, ReflTransGen h.Edge h.root u → u ≠ t ∧ u ≠ c := by
    intro u hu
    induction hu with
    | refl =>
      refine ⟨Ne.symm hroot, ?_⟩
      rintro rfl
      exact hw.not_edge_root t he
    | @tail x y _ hxy ih =>
      constructor
      · rintro rfl
        exact hnone ⟨x, ih.1, ih.2, .inr hxy⟩
      · rintro rfl
        exact hnone ⟨x, ih.1, ih.2, .inl hxy⟩
  exact (houtside t (hw.reached t ht)).1 rfl

/-- What handing the children of `t` over and cutting `t` off does to the edges and to the maps. -/
private theorem cutOff (hw : h.WellFormed) (ht : h.hasType t) (hroot : t ≠ h.root) :
    ∃ k, h.removeNode t = k.forget t ∧ Rewired h k ∧
      ∀ a b, k.Edge a b ↔ a ≠ t ∧ b ≠ t ∧ (h.Edge a b ∨ (h.Edge a t ∧ h.Edge t b) ∧ a ≠ b) := by
  let parents := (h.parentsOf t).erase t
  let children := (h.childrenOf t).erase t
  have hmemp : ∀ p, p ∈ parents ↔ h.Edge p t := by
    intro p
    rw [FinSet.mem_erase, hw.mirrored.mem_parentsOf_iff]
    exact and_iff_left_of_imp fun he heq ↦ hw.irrefl t (heq ▸ he)
  have hmemc : ∀ c, c ∈ children.toList ↔ h.Edge t c := by
    intro c
    rw [FinSet.mem_toList, FinSet.mem_erase]
    exact and_iff_left_of_imp fun he heq ↦ hw.irrefl t (heq ▸ he)
  have hp : ∀ p ∈ parents, h.hasType p := fun p hp ↦ hw.mirrored.hasType_left ((hmemp p).1 hp)
  have hc : ∀ c ∈ children.toList, h.hasType c := fun c hc ↦
    hw.mirrored.hasType_right ((hmemc c).1 hc)
  have hself : t ∉ parents := by simp [parents]
  have hother : ∀ c ∈ children.toList, ∃ p, p ≠ t ∧ (h.Edge p c ∨ p ∈ parents ∧ p ≠ c) := by
    intro c hc
    obtain ⟨p, hpt, hpc, hp⟩ := hw.exists_other_parent ht hroot ((hmemc c).1 hc)
    exact ⟨p, hpt, hp.imp_right fun he ↦ ⟨(hmemp p).2 he, hpc⟩⟩
  refine ⟨(children.toList.foldl (handOver t parents) h).unlinkAll parents t, rfl,
    ((Rewired.refl h).foldl fun k hk c hmem ↦
      hk.handOver hw.hasType_root hp (hc c hmem)).unlinkAll, fun a b ↦ ?_⟩
  rw [edge_unlinkAll, edge_foldl_handOver hw.mirrored hw.hasType_root hp hself hc hother, hmemp,
    hmemc]
  have hirrefl := hw.irrefl t
  by_cases ha : a = t
  · subst ha
    tauto
  · by_cases hb : b = t
    · subst hb
      tauto
    · tauto

/-- An edge remains or leads past the removed type. -/
theorem edge_removeNode (hw : h.WellFormed) (ht : h.hasType t) (hroot : t ≠ h.root) :
    (h.removeNode t).Edge a b ↔
      a ≠ t ∧ b ≠ t ∧ (h.Edge a b ∨ (h.Edge a t ∧ h.Edge t b) ∧ a ≠ b) := by
  obtain ⟨k, hk, -, hedge⟩ := hw.cutOff ht hroot
  rw [hk, edge_forget, hedge]
  tauto

theorem hasType_removeNode (hw : h.WellFormed) (ht : h.hasType t) (hroot : t ≠ h.root) :
    (h.removeNode t).hasType u ↔ u ≠ t ∧ h.hasType u := by
  obtain ⟨k, hk, hrewired, -⟩ := hw.cutOff ht hroot
  rw [hk, hasType_forget, hrewired.hasType_eq]

theorem root_removeNode (hw : h.WellFormed) (ht : h.hasType t) (hroot : t ≠ h.root) :
    (h.removeNode t).root = h.root := by
  obtain ⟨k, hk, hrewired, -⟩ := hw.cutOff ht hroot
  rw [hk]
  exact hrewired.root_eq

theorem generation_removeNode (hw : h.WellFormed) (ht : h.hasType t) (hroot : t ≠ h.root) :
    (h.removeNode t).generation = h.generation := by
  obtain ⟨k, hk, hrewired, -⟩ := hw.cutOff ht hroot
  rw [hk]
  exact hrewired.generation_eq

theorem attributes_removeNode (hw : h.WellFormed) (ht : h.hasType t) (hroot : t ≠ h.root) :
    (h.removeNode t).attributes = h.attributes.erase t := by
  obtain ⟨k, hk, hrewired, -⟩ := hw.cutOff ht hroot
  rw [hk, ← hrewired.attributes_eq]
  rfl

theorem ownAttributes_removeNode (hw : h.WellFormed) (ht : h.hasType t) (hroot : t ≠ h.root) :
    (h.removeNode t).ownAttributes = h.ownAttributes := by
  obtain ⟨k, hk, hrewired, -⟩ := hw.cutOff ht hroot
  rw [hk]
  exact hrewired.ownAttributes_eq

/-- **Removal keeps the paths** between the types that stay. -/
theorem reflTransGen_removeNode_iff (hw : h.WellFormed) (ht : h.hasType t) (hroot : t ≠ h.root)
    (hu : u ≠ t) (hv : v ≠ t) :
    ReflTransGen (h.removeNode t).Edge u v ↔ ReflTransGen h.Edge u v := by
  constructor
  · intro hp
    induction hp with
    | refl => exact .refl
    | @tail x y _ hxy ih =>
      obtain ⟨hx, -, he | ⟨⟨hxt, hty⟩, -⟩⟩ := (hw.edge_removeNode ht hroot).1 hxy
      · exact (ih hx).tail he
      · exact ((ih hx).tail hxt).tail hty
  · intro hp
    -- a path that stands at `t` has been followed to a parent of `t` only
    have hstay : v ≠ t ∧ ReflTransGen (h.removeNode t).Edge u v ∨
        v = t ∧ ∃ p, h.Edge p t ∧ ReflTransGen (h.removeNode t).Edge u p := by
      clear hv
      induction hp with
      | refl => exact .inl ⟨hu, .refl⟩
      | @tail x y _ hxy ih =>
        rcases ih with ⟨hx, hpath⟩ | ⟨rfl, p, hp, hpath⟩
        · by_cases hy : y = t
          · exact .inr ⟨hy, x, hy ▸ hxy, hpath⟩
          · exact .inl ⟨hy, hpath.tail ((hw.edge_removeNode ht hroot).2 ⟨hx, hy, .inl hxy⟩)⟩
        · have hy : y ≠ x := fun heq ↦ hw.irrefl x (heq ▸ hxy)
          refine .inl ⟨hy, ?_⟩
          by_cases hpy : p = y
          · -- a cycle of two types: the edge is not made, and the path is there already
            exact hpy ▸ hpath
          · have hpx : p ≠ x := fun heq ↦ hw.irrefl x (heq ▸ hp)
            exact hpath.tail ((hw.edge_removeNode ht hroot).2 ⟨hpx, hy, .inr ⟨⟨hp, hxy⟩, hpy⟩⟩)
    rcases hstay with ⟨-, hpath⟩ | ⟨heq, -⟩
    · exact hpath
    · exact absurd heq hv

theorem removeNode (hw : h.WellFormed) (ht : h.hasType t) (hroot : t ≠ h.root) :
    (h.removeNode t).WellFormed where
  mirrored := by
    obtain ⟨k, hk, hrewired, hedge⟩ := hw.cutOff ht hroot
    rw [hk]
    apply (hrewired.mirrored hw.mirrored).forget
    · intro a ha
      exact ((hedge a t).1 ha).2.1 rfl
    · intro b hb
      exact ((hedge t b).1 hb).1 rfl
  named u hu := hw.named u ((hw.hasType_removeNode ht hroot).1 hu).2
  hasType_root := by
    rw [hw.root_removeNode ht hroot, hw.hasType_removeNode ht hroot]
    exact ⟨Ne.symm hroot, hw.hasType_root⟩
  not_edge_root a ha := by
    rw [hw.root_removeNode ht hroot, hw.edge_removeNode ht hroot] at ha
    obtain ⟨-, -, ha | ⟨⟨-, ha⟩, -⟩⟩ := ha
    · exact hw.not_edge_root a ha
    · exact hw.not_edge_root t ha
  irrefl u hu := by
    obtain ⟨-, -, hu | ⟨-, hne⟩⟩ := (hw.edge_removeNode ht hroot).1 hu
    · exact hw.irrefl u hu
    · exact hne rfl
  reached u hu := by
    obtain ⟨hut, hu⟩ := (hw.hasType_removeNode ht hroot).1 hu
    rw [hw.root_removeNode ht hroot, hw.reflTransGen_removeNode_iff ht hroot (Ne.symm hroot) hut]
    exact hw.reached u hu
  annotated u hu := by
    obtain ⟨k, hk, hrewired, -⟩ := hw.cutOff ht hroot
    rw [hk, contains_attributes_forget, hrewired.attributes_eq] at hu
    rw [hw.hasType_removeNode ht hroot]
    exact ⟨hu.1, hw.annotated u hu.2⟩

/-! ## Removing several types -/

variable {names : List String}

/-- What is kept whenever a member other than the root is removed is kept by a run of removals. -/
theorem removeEach_induction {P : Hierarchy → Prop} (hw : h.WellFormed) (hh : P h)
    (hstep : ∀ k, ∀ name ∈ names, k.WellFormed → k.hasType (.named name) →
      .named name ≠ k.root → P k → P (k.removeNode (.named name))) :
    (h.removeEach names).value.WellFormed ∧ P (h.removeEach names).value := by
  induction names generalizing h with
  | nil => exact ⟨hw, hh⟩
  | cons name rest ih =>
    have hrest := fun k other hother ↦ hstep k other (List.mem_cons_of_mem name hother)
    rw [Hierarchy.removeEach]
    split
    · exact ih hw hh hrest
    · rename_i hroot
      have hne : .named name ≠ h.root := Ne.symm hroot
      split
      · rename_i ht
        exact ih (hw.removeNode ht hne) (hstep h name List.mem_cons_self hw ht hne hh) hrest
      · exact ih hw hh hrest

theorem removeEach (hw : h.WellFormed) : (h.removeEach names).value.WellFormed :=
  (hw.removeEach_induction (P := fun _ ↦ True) trivial fun _ _ _ _ _ _ _ ↦ trivial).1

theorem generation_removeEach (hw : h.WellFormed) :
    (h.removeEach names).value.generation = h.generation :=
  (hw.removeEach_induction (P := fun k ↦ k.generation = h.generation) rfl
    fun _ _ _ hk ht hroot heq ↦ (hk.generation_removeNode ht hroot).trans heq).2

/-- The members that stay are the root and those that are not named. -/
theorem hasType_removeEach (hw : h.WellFormed) :
    (h.removeEach names).value.hasType u ↔
      h.hasType u ∧ (u = h.root ∨ ∀ name ∈ names, u ≠ .named name) := by
  induction names generalizing h with
  | nil => simp [Hierarchy.removeEach]
  | cons name rest ih =>
    rw [Hierarchy.removeEach, List.forall_mem_cons]
    split
    · rename_i hroot
      rw [Journaled.value_bind, ih hw]
      by_cases hu : u = h.root
      · simp [hu]
      · have hne : u ≠ .named name := fun heq ↦ hu (heq.trans hroot.symm)
        simp [hu, hne]
    · rename_i hroot
      split
      · rename_i ht
        have ht' := Ne.symm hroot
        rw [ih (hw.removeNode ht ht'), hw.hasType_removeNode ht ht', hw.root_removeNode ht ht']
        by_cases hu : u = .named name
        · simp [hu, ht']
        · simp [hu]
      · rename_i ht
        rw [ih hw]
        by_cases hu : u = .named name
        · simp [hu, ht]
        · simp [hu]

/-- **A run of removals keeps the paths** between the types that stay. -/
theorem reflTransGen_removeEach_iff (hw : h.WellFormed)
    (hu : u = h.root ∨ ∀ name ∈ names, u ≠ .named name)
    (hv : v = h.root ∨ ∀ name ∈ names, v ≠ .named name) :
    ReflTransGen (h.removeEach names).value.Edge u v ↔ ReflTransGen h.Edge u v := by
  -- each removal keeps the root, so what stays in the run is what stays in its rest
  induction names generalizing h with
  | nil => rfl
  | cons name rest ih =>
    have hrest : ∀ w, (w = h.root ∨ ∀ name' ∈ name :: rest, w ≠ .named name') →
        w = h.root ∨ ∀ name' ∈ rest, w ≠ .named name' := fun w hw' ↦
      hw'.imp_right fun hall name' hmem ↦ hall name' (List.mem_cons_of_mem name hmem)
    rw [Hierarchy.removeEach]
    split
    · exact ih hw (hrest u hu) (hrest v hv)
    · rename_i hroot
      have ht' := Ne.symm hroot
      have hne : ∀ w, (w = h.root ∨ ∀ name' ∈ name :: rest, w ≠ .named name') →
          w ≠ .named name := fun w hw' ↦
        hw'.elim (fun heq ↦ heq ▸ hroot) fun hall ↦ hall name List.mem_cons_self
      split
      · rename_i ht
        have hroot' := hw.root_removeNode ht ht'
        rw [ih (hw.removeNode ht ht') (by rw [hroot']; exact hrest u hu)
          (by rw [hroot']; exact hrest v hv)]
        exact hw.reflTransGen_removeNode_iff ht ht' (hne u hu) (hne v hv)
      · exact ih hw (hrest u hu) (hrest v hv)

end WellFormed

/-! ## Removal as a request -/

variable {names : List String}

theorem value_remove : (h.remove names).value =
    if (h.removeEach names).value.size = h.size then (h.removeEach names).value
    else (h.removeEach names).value.advance := by
  rw [remove, Journaled.value_bind]
  split <;> rfl

namespace WellFormed

theorem remove (hw : h.WellFormed) : (h.remove names).value.WellFormed := by
  rw [value_remove]
  split
  · exact hw.removeEach
  · exact hw.removeEach.advance

/-- Whether the removal counts as a change makes no difference to the members. -/
theorem hasType_remove (hw : h.WellFormed) :
    (h.remove names).value.hasType u ↔
      h.hasType u ∧ (u = h.root ∨ ∀ name ∈ names, u ≠ .named name) := by
  rw [← hw.hasType_removeEach, value_remove]
  split
  · rfl
  · rfl

/-- Nor does it to the paths. -/
theorem reflTransGen_remove_iff (hw : h.WellFormed) (hu : (h.remove names).value.hasType u)
    (hv : (h.remove names).value.hasType v) :
    ReflTransGen (h.remove names).value.Edge u v ↔ ReflTransGen h.Edge u v := by
  rw [← hw.reflTransGen_removeEach_iff (hw.hasType_remove.1 hu).2 (hw.hasType_remove.1 hv).2,
    value_remove]
  split
  · rfl
  · rfl

end WellFormed

end Taxonomy.Hierarchy
