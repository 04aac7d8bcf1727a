import Taxonomy.Proofs.Hierarchy.Acyclic
import Taxonomy.Proofs.Hierarchy.EditedOrder
import Taxonomy.Proofs.Hierarchy.ReservedNames

/-!
# What more parents do to the order

A type that is given more parents gets edges into it, and a path that takes such edges takes the
last of them to the type and goes on without. What comes before may take several, but the first of
them is taken from a parent that the path came to without. So a path is one from before, or two: one
to a new parent and one from the type (`reflTransGen_into_iff`). No matter how many edges close a
cycle, one of the new parents was below the type then (`exists_cycle_into_iff`).

Parents that were missing become members, below the root. Nothing but the root leads to them, and
the root leads everywhere as it is, so they neither relate members nor close cycles.
-/

open Relation

namespace Taxonomy

/-! ## Edges into one type -/

section Into

variable {r : Ty → Ty → Prop} {isParent : Ty → Prop} {a b t : Ty}

/-- A path that may take edges from parents to `t` takes none, or comes to a parent and goes on from
`t`. -/
theorem reflTransGen_into_iff :
    ReflTransGen (fun x y ↦ r x y ∨ isParent x ∧ y = t) a b ↔
      ReflTransGen r a b ∨ ∃ p, isParent p ∧ ReflTransGen r a p ∧ ReflTransGen r t b := by
  constructor
  · intro hp
    induction hp with
    | refl => exact .inl .refl
    | @tail x y _ hxy ih =>
      rcases hxy with hxy | ⟨hx, rfl⟩
      · rcases ih with hax | ⟨p, hp, hap, htx⟩
        · exact .inl (hax.tail hxy)
        · exact .inr ⟨p, hp, hap, htx.tail hxy⟩
      · rcases ih with hax | ⟨p, hp, hap, -⟩
        · exact .inr ⟨x, hx, hax, .refl⟩
        · exact .inr ⟨p, hp, hap, .refl⟩
  · have hmono : ∀ x y, ReflTransGen r x y →
        ReflTransGen (fun x y ↦ r x y ∨ isParent x ∧ y = t) x y :=
      ReflTransGen.mono fun _ _ ↦ .inl
    rintro (hab | ⟨p, hp, hap, htb⟩)
    · exact hmono a b hab
    · exact ((hmono a p hap).tail (.inr ⟨hp, rfl⟩)).trans (hmono t b htb)

/-- Edges from parents to `t` close a cycle if `t` leads to a parent. -/
theorem exists_cycle_into_iff :
    (∃ c, TransGen (fun x y ↦ r x y ∨ isParent x ∧ y = t) c c) ↔
      (∃ c, TransGen r c c) ∨ ∃ p, isParent p ∧ ReflTransGen r t p := by
  constructor
  · rintro ⟨c, hcycle⟩
    obtain ⟨b, hcb, hbc⟩ := TransGen.head'_iff.1 hcycle
    rcases hcb with hcb | ⟨hc, rfl⟩
    · rcases reflTransGen_into_iff.1 hbc with hbc | ⟨p, hp, hbp, htc⟩
      · exact .inl ⟨c, .head' hcb hbc⟩
      · exact .inr ⟨p, hp, htc.trans (.head hcb hbp)⟩
    · rcases reflTransGen_into_iff.1 hbc with htc | ⟨p, hp, htp, -⟩
      · exact .inr ⟨c, hc, htc⟩
      · exact .inr ⟨p, hp, htp⟩
  · rintro (⟨c, hcycle⟩ | ⟨p, hp, htp⟩)
    · exact ⟨c, TransGen.mono (fun _ _ ↦ .inl) c c hcycle⟩
    · have hpath : ReflTransGen (fun x y ↦ r x y ∨ isParent x ∧ y = t) t p :=
        ReflTransGen.mono (fun _ _ ↦ .inl) t p htp
      exact ⟨t, .tail' hpath (.inr ⟨hp, rfl⟩)⟩

end Into

namespace Hierarchy

variable {h k : Hierarchy} {a b t u v : Ty} {parents : FinSet Ty} {name : String}
  {names : List String} {spelling : Spelling}

/-! ## More parents for a member -/

/-- `k` is `h` with `parents` made members and edges from these to `t`. -/
structure Extended (h k : Hierarchy) (t : Ty) (parents : FinSet Ty) : Prop where
  hasType_iff : ∀ u, k.hasType u ↔ u ∈ parents ∨ h.hasType u
  edge_iff : ∀ a b, k.Edge a b ↔ (h.ensureNodes parents).Edge a b ∨ a ∈ parents ∧ b = t

theorem Extended.edge_eq (hk : Extended h k t parents) :
    k.Edge = fun a b ↦ (h.ensureNodes parents).Edge a b ∨ a ∈ parents ∧ b = t := by
  funext a b
  exact propext (hk.edge_iff a b)

/-- What is asked for is done. Nothing is asked for and nothing done if no other type is named. -/
theorem extended_addParents (hmem : h.hasType (.named name)) (hroot : h.root ≠ .named name)
    (hopen : ∀ p ∈ names, spelling.reserves p = false) :
    Extended h (h.addParents spelling name names).value (.named name)
      (requestedParents name names) := by
  rw [addParents, if_pos hmem]
  dsimp only
  split
  · rename_i hempty
    rw [FinSet.isEmpty_iff] at hempty
    constructor
    · intro u
      simp [hempty]
    · intro a b
      simp [edge_ensureNodes, hempty]
  · rw [unlessReserved_eq fun p hp ↦ hopen p (List.mem_filter.1 hp).1]
    constructor
    · intro u
      exact (hasType_linkAll (hasType_ensureNodes.2 (.inr hmem))).trans hasType_ensureNodes
    · intro a b
      exact edge_linkAll

namespace WellFormed

/-- New members below the root are on no cycle. -/
theorem exists_cycle_ensureNodes_iff (hw : h.WellFormed) :
    (∃ c, TransGen (h.ensureNodes parents).Edge c c) ↔ ∃ c, TransGen h.Edge c c := by
  constructor
  · rintro ⟨c, hcycle⟩
    refine ⟨c, (hw.transGen_ensureNodes_iff ?_).1 hcycle⟩
    rintro rfl
    obtain ⟨a, -, ha⟩ := TransGen.tail'_iff.1 hcycle
    rcases edge_ensureNodes.1 ha with ha | ⟨-, -, hfresh⟩
    · exact hw.not_edge_root a ha
    · exact hfresh hw.hasType_root
  · rintro ⟨c, hcycle⟩
    exact ⟨c, TransGen.mono (fun _ _ he ↦ edge_ensureNodes.2 (.inl he)) c c hcycle⟩

variable (hw : h.WellFormed) (ht : h.hasType t) (hroot : t ≠ h.root)
  (hk : Extended h k t parents)

include hw hroot hk

/-- **A path between members** is one from before, or it comes to a new parent that was a member and
goes on from the type that has got it. -/
theorem reflTransGen_extended_iff (hu : h.hasType u) (hv : h.hasType v) :
    ReflTransGen k.Edge u v ↔ ReflTransGen h.Edge u v ∨
      ∃ p ∈ parents, h.hasType p ∧ ReflTransGen h.Edge u p ∧ ReflTransGen h.Edge t v := by
  by_cases hur : u = h.root
  · -- the root leads everywhere, before and after
    subst hur
    have hkept : ∀ a b, h.Edge a b → k.Edge a b := fun a b he ↦
      (hk.edge_iff a b).2 (.inl (edge_ensureNodes.2 (.inl he)))
    have hpath : ReflTransGen h.Edge h.root v := hw.reached v hv
    exact iff_of_true (ReflTransGen.mono hkept _ _ hpath) (.inl hpath)
  · rw [hk.edge_eq, reflTransGen_into_iff, hw.reflTransGen_ensureNodes_iff hur,
      hw.reflTransGen_ensureNodes_iff hroot]
    refine or_congr_right (exists_congr fun p ↦ and_congr_right fun _ ↦ ?_)
    rw [hw.reflTransGen_ensureNodes_iff hur]
    refine (and_iff_right_of_imp fun hpath ↦ ?_).symm
    exact hw.mirrored.hasType_of_reflTransGen (d := .down) hu hpath.1

include ht

/-- **There is a cycle** if there was one, or if a new parent was a member and below the type that
has got it. -/
theorem isCircular_extended_iff (hm : k.Mirrored) :
    k.isCircular ↔
      h.isCircular ∨ ∃ p ∈ parents, h.hasType p ∧ ReflTransGen h.Edge t p := by
  rw [hm.isCircular_iff, hw.mirrored.isCircular_iff, hk.edge_eq, exists_cycle_into_iff,
    hw.exists_cycle_ensureNodes_iff]
  refine or_congr_right (exists_congr fun p ↦ and_congr_right fun _ ↦ ?_)
  rw [hw.reflTransGen_ensureNodes_iff hroot]
  refine (and_iff_right_of_imp fun hpath ↦ ?_).symm
  exact hw.mirrored.hasType_of_reflTransGen (d := .down) ht hpath

end WellFormed

/-- The parents that are requested are those named, the type itself aside. -/
theorem exists_requestedParents_iff {P : Ty → Prop} :
    (∃ p ∈ requestedParents name names, P p) ↔ ∃ p ∈ names, p ≠ name ∧ P (.named p) := by
  simp only [mem_requestedParents]
  constructor
  · rintro ⟨_, ⟨⟨p, hp, rfl⟩, hne⟩, h⟩
    exact ⟨p, hp, fun heq ↦ hne (congrArg Ty.named heq), h⟩
  · rintro ⟨p, hp, hne, h⟩
    exact ⟨.named p, ⟨⟨p, hp, rfl⟩, fun heq ↦ hne (Ty.named.inj heq)⟩, h⟩

/-- **More parents force no more than they have to.** A member subsumes another if it did before, or
if it subsumed a new parent that was a member and the type that has got it subsumed the other. There
is a cycle if there was one, or if the type subsumed such a parent. -/
theorem Grown.addParents_forces_least (hg : h.Grown) (spelling : Spelling) (name : String)
    (names : List String) (hmem : h.hasType (.named name) = true) (hroot : h.root ≠ .named name)
    (hopen : ∀ p ∈ names, spelling.reserves p = false) :
    (∀ u v, h.hasType u = true → h.hasType v = true →
      (((h.addParents spelling name names).value.inquireSubsumes u v).answer
        (h.addParents spelling name names).value = true ↔
      (h.inquireSubsumes u v).answer h = true ∨
        ∃ p ∈ names, p ≠ name ∧ h.hasType (.named p) = true ∧
          (h.inquireSubsumes u (.named p)).answer h = true ∧
          (h.inquireSubsumes (.named name) v).answer h = true)) ∧
    ((h.addParents spelling name names).value.isCircular = true ↔
      h.isCircular = true ∨
        ∃ p ∈ names, p ≠ name ∧ h.hasType (.named p) = true ∧
          (h.inquireSubsumes (.named name) (.named p)).answer h = true) := by
  have hw : h.WellFormed := hg.wellFormed
  have hk : (h.addParents spelling name names).value.WellFormed := hw.addParents
  have hextended := extended_addParents hmem hroot hopen
  have hkept : ∀ u, h.hasType u → (h.addParents spelling name names).value.hasType u :=
    fun u hu ↦ (hextended.hasType_iff u).2 (.inr hu)
  constructor
  · intro u v hu hv
    rw [hk.answer_inquireSubsumes_iff (hkept u hu) (hkept v hv),
      hw.reflTransGen_extended_iff hroot.symm hextended hu hv, exists_requestedParents_iff,
      hw.answer_inquireSubsumes_iff hu hv]
    refine or_congr_right (exists_congr fun p ↦ and_congr_right fun _ ↦ and_congr_right fun _ ↦
      and_congr_right fun hp ↦ ?_)
    rw [hw.answer_inquireSubsumes_iff hu hp, hw.answer_inquireSubsumes_iff hmem hv]
  · rw [hw.isCircular_extended_iff hmem hroot.symm hextended hk.mirrored,
      exists_requestedParents_iff]
    refine or_congr_right (exists_congr fun p ↦ and_congr_right fun _ ↦ and_congr_right fun _ ↦
      and_congr_right fun hp ↦ ?_)
    rw [hw.answer_inquireSubsumes_iff hmem hp]

/-- Types below the root, each below the one before. -/
def strand : Hierarchy :=
  [.add "a" [], .add "b" ["a"], .add "c" ["b"]].foldl
    (fun h r ↦ (h.serve {} r).value.1) (Hierarchy.new "r")

theorem grown_strand : strand.Grown := by
  refine Grown.foldl_serve (.new "r") {} ?_
  simp [Request.sources]

/-- Parents that are missing or above close no cycle. The end of a strand and a missing type as
parents of its beginning close one, on which the end is above what lay between. -/
theorem addParents_forces_least_strand :
    strand.Grown ∧
    (strand.addParents {} "c" ["a", "d", "c"]).value.isCircular = false ∧
    (strand.addParents {} "a" ["d", "c"]).value.isCircular = true ∧
    ((strand.addParents {} "a" ["d", "c"]).value.inquireSubsumes (.named "c") (.named "b")).answer
      (strand.addParents {} "a" ["d", "c"]).value = true := by
  obtain ⟨-, hopen⟩ := grown_strand.addParents_forces_least {} "c" ["a", "d", "c"] (by decide)
    (by decide) (by decide)
  obtain ⟨horder, hclosed⟩ := grown_strand.addParents_forces_least {} "a" ["d", "c"] (by decide)
    (by decide) (by decide)
  refine ⟨grown_strand, Bool.eq_false_iff.2 fun hcircular ↦ ?_, hclosed.2 (.inr ⟨"c", ?_⟩),
    (horder _ _ (by decide) (by decide)).2 (.inr ⟨"c", ?_⟩)⟩
  · have hnone := hopen.1 hcircular
    revert hnone
    decide +kernel
  · decide +kernel
  · decide +kernel

end Hierarchy

end Taxonomy
