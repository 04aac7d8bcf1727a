import Taxonomy.Proofs.Hierarchy.Insertion

/-!
# Renaming types

Replacing `old` by `new` identifies the two. The hierarchy that comes out is the image of the one
before under `renamed old new`, less the edges that would lead from a type to itself or into the
root (`WellFormed.edge_replaceNode`). This one description covers the name that is new and the name
that is taken, and every way in which the root can be involved.

Paths are mapped like edges. An edge that has been left out joins a type to itself or ends at the
root, so a path from the root can do without it.
-/

open Relation

namespace Taxonomy.Hierarchy

variable {h k : Hierarchy} {a b old new t u : Ty}

/-- What a type is called after `old` has been replaced by `new`. -/
def renamed (old new t : Ty) : Ty := if t = old then new else t

@[simp] theorem renamed_self : renamed old new old = new := if_pos rfl

theorem renamed_of_ne (ht : t ≠ old) : renamed old new t = t := if_neg ht

/-- A type that is called `u` was called so before, or is the one that was renamed. -/
theorem renamed_eq_iff : renamed old new t = u ↔ t = old ∧ u = new ∨ t ≠ old ∧ t = u := by
  by_cases ht : t = old
  · simp [ht, eq_comm]
  · simp [ht, renamed_of_ne]

/-! ## Moving edges -/

/-- An edge is cut, and another put in its place or not. -/
private theorem edge_exchange {keep : Prop} [Decidable keep] {p c p' c' : Ty} :
    (if keep then (h.unlink p c).link p' c' else h.unlink p c : Hierarchy).Edge a b ↔
      h.Edge a b ∧ ¬ (a = p ∧ b = c) ∨ keep ∧ a = p' ∧ b = c' := by
  split
  · rename_i hkeep
    rw [edge_link, edge_unlink, and_iff_right hkeep]
  · rename_i hkeep
    rw [edge_unlink, or_iff_left fun hput ↦ hkeep hput.1]

/-- The edges once those at `old` have been transferred to `new`: those away from `old`, those into
it unless the root is involved, and those from it. -/
def TransferredEdge (h : Hierarchy) (old new a b : Ty) : Prop :=
  h.Edge a b ∧ a ≠ old ∧ b ≠ old ∨
  (h.root ≠ old ∧ h.root ≠ new) ∧ h.Edge a old ∧ a ≠ new ∧ b = new ∨
  a = new ∧ h.Edge old b ∧ b ≠ new

/-- Each edge at `old` is cut, and put back at `new` where it may be. -/
theorem edge_transferEdges (hm : h.Mirrored) (hold : ¬ h.Edge old old) (hne : new ≠ old) :
    (h.transferEdges old new).Edge a b ↔ h.TransferredEdge old new a b := by
  let kept : Bool := h.root ≠ old && h.root ≠ new
  have habove : ∀ (k : Hierarchy) p a b,
      (if kept && p ≠ new then (k.unlink p old).link p new
        else k.unlink p old : Hierarchy).Edge a b ↔
        k.Edge a b ∧ ¬ (a = p ∧ b = old) ∨ (kept && p ≠ new) ∧ a = p ∧ b = new :=
    fun _ _ _ _ ↦ edge_exchange
  have hbelow : ∀ (k : Hierarchy) c a b,
      (if c ≠ new then (k.unlink old c).link new c
        else k.unlink old c : Hierarchy).Edge a b ↔
        k.Edge a b ∧ ¬ (a = old ∧ b = c) ∨ c ≠ new ∧ a = new ∧ b = c :=
    fun _ _ _ _ ↦ edge_exchange
  have hparents : ∀ p, p ∈ (h.parentsOf old).toList ↔ h.Edge p old := fun p ↦
    FinSet.mem_toList.trans (hm.mem_parentsOf_iff p old)
  have hchildren : ∀ c, c ∈ (h.childrenOf old).toList ↔ h.Edge old c := fun c ↦ FinSet.mem_toList
  have hkept : kept = true ↔ h.root ≠ old ∧ h.root ≠ new := by simp [kept]
  rw [transferEdges, edge_foldl hbelow ?_, edge_foldl habove ?_, TransferredEdge]
  · simp only [hparents, hchildren, Bool.and_eq_true, hkept, decide_eq_true_eq]
    constructor
    · rintro (⟨⟨he, hinto⟩ | ⟨p, hp, ⟨hkeep, hpn⟩, rfl, hb⟩, hfrom⟩ | ⟨c, hc, hcn, ha, rfl⟩)
      · refine .inl ⟨he, ?_, ?_⟩
        · rintro rfl
          exact hfrom b he ⟨rfl, rfl⟩
        · rintro rfl
          exact hinto a he ⟨rfl, rfl⟩
      · exact .inr (.inl ⟨hkeep, hp, hpn, hb⟩)
      · exact .inr (.inr ⟨ha, hc, hcn⟩)
    · rintro (⟨he, ha, hb⟩ | ⟨hkeep, hp, hpn, hb⟩ | ⟨ha, hc, hcn⟩)
      · exact .inl ⟨.inl ⟨he, fun _ _ heq ↦ hb heq.2⟩, fun _ _ heq ↦ ha heq.1⟩
      · refine .inl ⟨.inr ⟨a, hp, ⟨hkeep, hpn⟩, rfl, hb⟩, fun c _ heq ↦ hold ?_⟩
        exact heq.1 ▸ hp
      · exact .inr ⟨b, hc, hcn, ha, rfl⟩
  -- no edge that is put in is cut later, as it would have to touch both `new` and `old`
  · rintro p q a b ⟨-, -, hb⟩ ⟨-, hb'⟩
    exact hne (hb.symm.trans hb')
  · rintro c d a b ⟨-, ha, -⟩ ⟨ha', -⟩
    exact hne (ha.symm.trans ha')

theorem Rewired.transferEdges (hm : h.Mirrored) (hnew : h.hasType new) :
    Rewired h (h.transferEdges old new) := by
  refine ((Rewired.refl h).foldl ?_).foldl ?_
  · intro k hk p hp
    have hparent : h.hasType p :=
      hm.hasType_left ((hm.mem_parentsOf_iff p old).1 (FinSet.mem_toList.1 hp))
    dsimp only
    split
    · exact hk.unlink.link hparent hnew
    · exact hk.unlink
  · intro k hk c hc
    have hchild : h.hasType c := hm.hasType_right (FinSet.mem_toList.1 hc)
    dsimp only
    split
    · exact hk.unlink.link hnew hchild
    · exact hk.unlink

/-! ## The other steps -/

theorem edge_transferAttributes : (h.transferAttributes old new).Edge a b ↔ h.Edge a b := by
  rw [transferAttributes]
  split <;> rfl

theorem hasType_transferAttributes :
    (h.transferAttributes old new).hasType t = h.hasType t := by
  rw [transferAttributes]
  split <;> rfl

theorem root_transferAttributes : (h.transferAttributes old new).root = h.root := by
  rw [transferAttributes]
  split <;> rfl

theorem generation_transferAttributes :
    (h.transferAttributes old new).generation = h.generation := by
  rw [transferAttributes]
  split <;> rfl

theorem Mirrored.transferAttributes (hm : h.Mirrored) :
    (h.transferAttributes old new).Mirrored := by
  rw [Hierarchy.transferAttributes]
  split
  · exact hm
  · exact ⟨hm.contains_children_iff, hm.mem_parentsOf_iff⟩

/-- Annotations are transferred to `new`, and to no other type. -/
theorem contains_attributes_transferAttributes
    (ht : (h.transferAttributes old new).attributes.contains t) :
    t = new ∨ h.attributes.contains t := by
  rw [transferAttributes] at ht
  split at ht
  · exact .inr ht
  · rw [FinMap.contains_upsert, FinMap.contains_erase] at ht
    exact ht.imp_right And.right

theorem edge_makeRoot (hm : h.Mirrored) : (h.makeRoot t).Edge a b ↔ h.Edge a b ∧ b ≠ t := by
  have hcut : (h.makeRoot t).Edge a b ↔ h.Edge a b ∧ ¬ (a ∈ h.parentsOf t ∧ b = t) :=
    edge_unlinkAll
  rw [hcut, hm.mem_parentsOf_iff]
  refine and_congr_right fun he ↦ not_congr ⟨And.right, ?_⟩
  rintro rfl
  exact ⟨he, rfl⟩

/-- Choosing a root is a rewiring but for the root. -/
theorem rewired_makeRoot : Rewired { h with root := t } (h.makeRoot t) := (Rewired.refl _).unlinkAll

/-- Nothing is left at `old`, which may therefore be forgotten. -/
theorem TransferredEdge.ne_old (hw : h.WellFormed) (hne : new ≠ old)
    (he : h.TransferredEdge old new a b) : a ≠ old ∧ b ≠ old := by
  rcases he with ⟨-, ha, hb⟩ | ⟨-, he, -, rfl⟩ | ⟨rfl, he, -⟩
  · exact ⟨ha, hb⟩
  · exact ⟨fun heq ↦ hw.irrefl old (heq ▸ he), hne⟩
  · exact ⟨hne, fun heq ↦ hw.irrefl old (heq ▸ he)⟩

namespace WellFormed

/-! ## The effect of a replacement -/

/-- What has been reached when `old` has just been forgotten. -/
private structure Moved (h : Hierarchy) (old new : Ty) (moved : Hierarchy) : Prop where
  mirrored : moved.Mirrored
  root_eq : moved.root = h.root
  generation_eq : moved.generation = h.generation
  hasType_iff : ∀ u, moved.hasType u ↔ u = new ∨ u ≠ old ∧ h.hasType u
  edge_iff : ∀ a b, moved.Edge a b ↔ h.TransferredEdge old new a b
  annotated : ∀ u, moved.attributes.contains u → moved.hasType u

private theorem exists_moved (hw : h.WellFormed) (hne : new ≠ old) :
    ∃ moved, Moved h old new moved ∧
      h.replaceNode old new = (if h.root = old then moved.makeRoot new else moved).advance := by
  let wired := (h.insertNode new).transferEdges old new
  have hmirrored : (h.insertNode new).Mirrored := hw.mirrored.insertNode new
  have hirrefl : ¬ (h.insertNode new).Edge old old := by
    rw [edge_insertNode]
    exact hw.irrefl old
  have hwired : Rewired (h.insertNode new) wired :=
    .transferEdges hmirrored (hasType_insertNode.2 (.inl rfl))
  have hedge : ∀ a b, (wired.transferAttributes old new).Edge a b ↔
      h.TransferredEdge old new a b := by
    intro a b
    rw [edge_transferAttributes, edge_transferEdges hmirrored hirrefl hne]
    simp only [TransferredEdge, edge_insertNode, root_insertNode]
  have hmem : ∀ u, ((wired.transferAttributes old new).forget old).hasType u ↔
      u = new ∨ u ≠ old ∧ h.hasType u := by
    intro u
    rw [hasType_forget, hasType_transferAttributes, hwired.hasType_eq, hasType_insertNode]
    by_cases hu : u = new
    · simp [hu, hne]
    · simp [hu]
  refine ⟨(wired.transferAttributes old new).forget old,
    ⟨?_, ?_, ?_, hmem, ?_, ?_⟩, rfl⟩
  · apply (hwired.mirrored hmirrored).transferAttributes.forget
    · intro a ha
      exact (((hedge a old).1 ha).ne_old hw hne).2 rfl
    · intro b hb
      exact (((hedge old b).1 hb).ne_old hw hne).1 rfl
  · exact root_transferAttributes.trans (hwired.root_eq.trans root_insertNode)
  · exact generation_transferAttributes.trans (hwired.generation_eq.trans generation_insertNode)
  · intro a b
    rw [edge_forget, hedge]
    exact and_iff_right_of_imp fun he ↦ (he.ne_old hw hne).1
  · intro u hu
    rw [hmem]
    have hkey := contains_attributes_forget.1 hu
    rcases contains_attributes_transferAttributes hkey.2 with heq | hold
    · exact .inl heq
    · rw [hwired.attributes_eq, attributes_insertNode] at hold
      exact .inr ⟨hkey.1, hw.annotated u hold⟩

theorem root_replaceNode (hw : h.WellFormed) (hne : new ≠ old) :
    (h.replaceNode old new).root = renamed old new h.root := by
  obtain ⟨moved, hmoved, heq⟩ := hw.exists_moved hne
  rw [heq, root_advance]
  split
  · rename_i hroot
    rw [hroot, renamed_self]
    exact rewired_makeRoot.root_eq
  · rename_i hroot
    rw [renamed_of_ne hroot, hmoved.root_eq]

theorem generation_replaceNode (hw : h.WellFormed) (hne : new ≠ old) :
    (h.replaceNode old new).generation = h.generation + 1 := by
  obtain ⟨moved, hmoved, heq⟩ := hw.exists_moved hne
  rw [heq, ← hmoved.generation_eq]
  split
  · exact congrArg (· + 1) (rewired_makeRoot (h := moved) (t := new)).generation_eq
  · rfl

private theorem hasType_replaceNode' (hw : h.WellFormed) (hne : new ≠ old) :
    (h.replaceNode old new).hasType u ↔ u = new ∨ u ≠ old ∧ h.hasType u := by
  obtain ⟨moved, hmoved, heq⟩ := hw.exists_moved hne
  rw [heq, hasType_advance, ← hmoved.hasType_iff]
  split
  · rw [rewired_makeRoot.hasType_eq]
    rfl
  · rfl

/-- The members are those from before, renamed. -/
theorem hasType_replaceNode (hw : h.WellFormed) (hold : h.hasType old) (hne : new ≠ old) :
    (h.replaceNode old new).hasType u ↔ ∃ t, h.hasType t ∧ renamed old new t = u := by
  rw [hw.hasType_replaceNode' hne]
  constructor
  · rintro (rfl | ⟨hu, hmem⟩)
    · exact ⟨old, hold, renamed_self⟩
    · exact ⟨u, hmem, renamed_of_ne hu⟩
  · rintro ⟨t, ht, heq⟩
    rcases renamed_eq_iff.1 heq with ⟨-, hu⟩ | ⟨hne, rfl⟩
    · exact .inl hu
    · exact .inr ⟨hne, ht⟩

/-- **The edges are those from before, renamed**, as far as they may be. -/
theorem edge_replaceNode (hw : h.WellFormed) (hne : new ≠ old) :
    (h.replaceNode old new).Edge a b ↔
      (a ≠ b ∧ b ≠ renamed old new h.root) ∧
        ∃ a' b', h.Edge a' b' ∧ renamed old new a' = a ∧ renamed old new b' = b := by
  obtain ⟨moved, hmoved, heq⟩ := hw.exists_moved hne
  have hfinal : (h.replaceNode old new).Edge a b ↔
      moved.Edge a b ∧ (h.root = old → b ≠ new) := by
    rw [heq, edge_advance]
    split
    · rename_i hroot
      rw [edge_makeRoot hmoved.mirrored, forall_prop_of_true hroot]
    · rename_i hroot
      exact (and_iff_left fun heq ↦ absurd heq hroot).symm
  rw [hfinal, hmoved.edge_iff, TransferredEdge]
  constructor
  · rintro ⟨⟨he, ha, hb⟩ | ⟨⟨hro, hrn⟩, he, han, rfl⟩ | ⟨rfl, he, hbn⟩, hcut⟩
    · refine ⟨⟨?_, ?_⟩, a, b, he, renamed_of_ne ha, renamed_of_ne hb⟩
      · rintro rfl
        exact hw.irrefl a he
      · rw [renamed]
        split
        · rename_i hroot
          exact hcut hroot
        · rintro rfl
          exact hw.not_edge_root a he
    · have ha : a ≠ old := by
        rintro rfl
        exact hw.irrefl a he
      refine ⟨⟨han, ?_⟩, a, old, he, renamed_of_ne ha, renamed_self⟩
      rw [renamed_of_ne hro]
      exact Ne.symm hrn
    · have hb : b ≠ old := by
        rintro rfl
        exact hw.irrefl b he
      refine ⟨⟨Ne.symm hbn, ?_⟩, old, b, he, renamed_self, renamed_of_ne hb⟩
      rw [renamed]
      split
      · exact hbn
      · rintro rfl
        exact hw.not_edge_root old he
  · rintro ⟨⟨hab, hroot⟩, a', b', he, ha, hb⟩
    have hcut : h.root = old → b ≠ new := fun heq ↦ by rwa [heq, renamed_self] at hroot
    refine ⟨?_, hcut⟩
    rcases renamed_eq_iff.1 ha with ⟨rfl, rfl⟩ | ⟨ha', rfl⟩
    · rcases renamed_eq_iff.1 hb with ⟨rfl, rfl⟩ | ⟨hb', rfl⟩
      · exact absurd rfl hab
      · exact .inr (.inr ⟨rfl, he, Ne.symm hab⟩)
    · rcases renamed_eq_iff.1 hb with ⟨rfl, rfl⟩ | ⟨hb', rfl⟩
      · -- the renamed type has a parent, so it is not the root, and neither is its new name
        have hro : h.root ≠ b' := fun heq ↦ hw.not_edge_root a' (heq ▸ he)
        rw [renamed_of_ne hro] at hroot
        exact .inr (.inl ⟨⟨hro, Ne.symm hroot⟩, he, hab, rfl⟩)
      · exact .inl ⟨he, ha', hb'⟩

/-- A path from the root is mapped to one. -/
theorem reflTransGen_replaceNode (hw : h.WellFormed) (hne : new ≠ old)
    (hp : ReflTransGen h.Edge h.root t) :
    ReflTransGen (h.replaceNode old new).Edge (renamed old new h.root) (renamed old new t) := by
  induction hp with
  | refl => exact .refl
  | @tail x y _ hxy ih =>
    by_cases hroot : renamed old new y = renamed old new h.root
    · -- the path so far has come back to the root and is dropped
      rw [hroot]
    · by_cases heq : renamed old new x = renamed old new y
      · rwa [← heq]
      · exact ih.tail ((hw.edge_replaceNode hne).2 ⟨⟨heq, hroot⟩, x, y, hxy, rfl, rfl⟩)

theorem replaceNode (hw : h.WellFormed) (hold : h.hasType old) (hne : new ≠ old)
    (hnamed : ∃ name, new = .named name) : (h.replaceNode old new).WellFormed where
  mirrored := by
    obtain ⟨moved, hmoved, heq⟩ := hw.exists_moved hne
    rw [heq]
    split
    · exact ((rewired_makeRoot (t := new)).mirrored
        ⟨hmoved.mirrored.contains_children_iff, hmoved.mirrored.mem_parentsOf_iff⟩).advance
    · exact hmoved.mirrored.advance
  named u hu := by
    rcases (hw.hasType_replaceNode' hne).1 hu with rfl | ⟨-, hu⟩
    · exact hnamed
    · exact hw.named u hu
  hasType_root := by
    rw [hw.root_replaceNode hne, hw.hasType_replaceNode hold hne]
    exact ⟨h.root, hw.hasType_root, rfl⟩
  not_edge_root a ha := by
    rw [hw.root_replaceNode hne, hw.edge_replaceNode hne] at ha
    exact ha.1.2 rfl
  irrefl u hu := ((hw.edge_replaceNode hne).1 hu).1.1 rfl
  reached u hu := by
    obtain ⟨t, ht, rfl⟩ := (hw.hasType_replaceNode hold hne).1 hu
    rw [hw.root_replaceNode hne]
    exact hw.reflTransGen_replaceNode hne (hw.reached t ht)
  annotated u hu := by
    obtain ⟨moved, hmoved, heq⟩ := hw.exists_moved hne
    rw [hw.hasType_replaceNode' hne, ← hmoved.hasType_iff]
    refine hmoved.annotated u ?_
    rw [heq, attributes_advance] at hu
    split at hu
    · rwa [rewired_makeRoot.attributes_eq] at hu
    · exact hu

theorem replace {spelling : Spelling} {old new : String} (hw : h.WellFormed) :
    (h.replace spelling old new).value.WellFormed := by
  rw [Hierarchy.replace]
  split
  · exact hw
  · rename_i hne
    split
    · rename_i hold
      refine hw.unlessReserved (hw.replaceNode hold (fun heq ↦ hne ?_) ⟨new, rfl⟩)
      exact (Ty.named.inj heq).symm
    · exact hw

end WellFormed

end Taxonomy.Hierarchy
