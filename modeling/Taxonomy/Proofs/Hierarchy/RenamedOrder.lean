import Taxonomy.Proofs.Hierarchy.Comparison
import Taxonomy.Proofs.Resolution.Order

/-!
# What renaming does to the order

When `old` has been replaced by `new`, the edges are those from before under their new names, less
the ones that would lead into the root. So a path afterwards is one from before that may change
between types that have come to be called alike, and that does without the edges into what has
become the root (`WellFormed.reflTransGen_replaceNode_iff`). What this means depends on the two.

* If no type was called `new`, no two members are called alike. The order stays as it was, and
  replacing `new` by `old` undoes everything (`WellFormed.sameAs_replaceNode_replaceNode`).
* If some type was, and neither is the root, a path may change between the two.
* If one of them is the root, no other type leads to it, and a path between other types does without
  both.
-/

open Relation

namespace Taxonomy.Hierarchy

variable {h : Hierarchy} {a b old new t u v : Ty} {key : String}

/-! ## Types that are called alike -/

theorem renamed_eq_new_iff : renamed old new t = new ↔ t = old ∨ t = new := by
  rw [renamed_eq_iff]
  by_cases ht : t = old <;> simp [ht]

/-- The two that are identified are called alike, and no others. -/
theorem renamed_eq_renamed_iff :
    renamed old new a = renamed old new b ↔ a = b ∨ a = old ∧ b = new ∨ a = new ∧ b = old := by
  rw [renamed_eq_iff]
  by_cases hb : b = old
  · subst hb
    rw [renamed_self]
    tauto
  · rw [renamed_of_ne hb]
    grind

/-- Renaming back. -/
theorem renamed_renamed (ht : t ≠ new) : renamed new old (renamed old new t) = t := by
  by_cases hold : t = old
  · rw [hold, renamed_self, renamed_self]
  · rw [renamed_of_ne hold, renamed_of_ne ht]

/-- No type is renamed to a reserved value, and no reserved value is renamed. -/
theorem renamed_eq_reserved_iff {old new : String} (hu : ∀ name, u ≠ .named name) :
    renamed (.named old) (.named new) t = u ↔ t = u := by
  rw [renamed_eq_iff, or_iff_right fun heq ↦ hu new heq.2]
  refine and_iff_right_of_imp fun heq hold ↦ hu old ?_
  rw [← heq, hold]

/-! ## Paths -/

/-- A path between images comes from one that may change between types with the same image. Whether
an image may lead to itself makes no difference. -/
theorem reflTransGen_map_iff {α β : Type} {r : α → α → Prop} {f : α → β} {x y : α} :
    ReflTransGen (fun c d ↦ c ≠ d ∧ Relation.Map r f f c d) (f x) (f y) ↔
      ReflTransGen (fun u v ↦ r u v ∨ f u = f v) x y := by
  constructor
  · intro hp
    generalize hd : f y = d at hp
    -- the path may end at any type with this image
    induction hp generalizing y with
    | refl => exact .single (.inr hd.symm)
    | tail _ hstep ih =>
      obtain ⟨-, u, v, huv, hu, hv⟩ := hstep
      exact ((ih hu).tail (.inl huv)).tail (.inr (hv.trans hd.symm))
  · intro hp
    induction hp with
    | refl => exact .refl
    | @tail u v _ hstep ih =>
      by_cases heq : f u = f v
      · rwa [← heq]
      · exact ih.tail ⟨heq, u, v, hstep.resolve_right heq, rfl, rfl⟩

/-- The edges that are kept under their new names: those that do not lead into what becomes the
root. -/
def KeptEdge (h : Hierarchy) (old new a b : Ty) : Prop :=
  h.Edge a b ∧ renamed old new b ≠ renamed old new h.root

namespace WellFormed

theorem edge_replaceNode_iff_map (hw : h.WellFormed) (hne : new ≠ old) :
    (h.replaceNode old new).Edge a b ↔
      a ≠ b ∧ Relation.Map (h.KeptEdge old new) (renamed old new) (renamed old new) a b := by
  rw [hw.edge_replaceNode hne, and_assoc]
  refine and_congr_right fun _ ↦ ?_
  constructor
  · rintro ⟨hroot, a', b', he, ha, rfl⟩
    exact ⟨a', b', ⟨he, hroot⟩, ha, rfl⟩
  · rintro ⟨a', b', ⟨he, hroot⟩, ha, rfl⟩
    exact ⟨hroot, a', b', he, ha, rfl⟩

/-- **The paths after a replacement.** -/
theorem reflTransGen_replaceNode_iff (hw : h.WellFormed) (hne : new ≠ old) :
    ReflTransGen (h.replaceNode old new).Edge (renamed old new u) (renamed old new v) ↔
      ReflTransGen (fun a b ↦ h.KeptEdge old new a b ∨ renamed old new a = renamed old new b)
        u v := by
  have hedge : (h.replaceNode old new).Edge = fun a b ↦
      a ≠ b ∧ Relation.Map (h.KeptEdge old new) (renamed old new) (renamed old new) a b := by
    funext a b
    exact propext (hw.edge_replaceNode_iff_map hne)
  rw [hedge, reflTransGen_map_iff]

/-- The name that replaces is that of a member. -/
theorem hasType_replaceNode_new (hw : h.WellFormed) (hold : h.hasType old) (hne : new ≠ old) :
    (h.replaceNode old new).hasType new :=
  (hw.hasType_replaceNode hold hne).2 ⟨old, hold, renamed_self⟩

/-- If neither of the two is the root, every edge is kept and paths may change between the two. -/
theorem reflTransGen_replaceNode_of_ne_root (hw : h.WellFormed) (hne : new ≠ old)
    (hro : h.root ≠ old) (hrn : h.root ≠ new) :
    ReflTransGen (h.replaceNode old new).Edge (renamed old new u) (renamed old new v) ↔
      ReflTransGen (fun a b ↦ h.Edge a b ∨ a = old ∧ b = new ∨ a = new ∧ b = old) u v := by
  rw [hw.reflTransGen_replaceNode_iff hne]
  constructor
  · intro hp
    refine ReflTransGen.lift' id (fun a b hstep ↦ ?_) _ _ hp
    rcases hstep with ⟨he, -⟩ | heq
    · exact .single (.inl he)
    · rcases renamed_eq_renamed_iff.1 heq with rfl | hchange
      · exact .refl
      · exact .single (.inr hchange)
  · refine ReflTransGen.mono (fun a b hstep ↦ ?_) _ _
    rcases hstep with he | hchange
    · refine .inl ⟨he, fun heq ↦ ?_⟩
      rcases renamed_eq_renamed_iff.1 heq with hroot | ⟨-, hroot⟩ | ⟨-, hroot⟩
      · exact hw.not_edge_root a (hroot ▸ he)
      · exact hrn hroot
      · exact hro hroot
    · exact .inr (renamed_eq_renamed_iff.2 (.inr hchange))

/-- If one of the two is the root, paths between other types are those that do without both. -/
theorem reflTransGen_replaceNode_of_eq_root (hw : h.WellFormed) (hne : new ≠ old)
    (hroot : h.root = old ∨ h.root = new) (hu : u ≠ old ∧ u ≠ new) (hv : v ≠ old ∧ v ≠ new) :
    ReflTransGen (h.replaceNode old new).Edge u v ↔
      ReflTransGen (fun a b ↦ h.Edge a b ∧ (a ≠ old ∧ a ≠ new) ∧ b ≠ old ∧ b ≠ new) u v := by
  have hpaths := hw.reflTransGen_replaceNode_iff (u := u) (v := v) hne
  rw [renamed_of_ne hu.1, renamed_of_ne hv.1] at hpaths
  have hkept : ∀ a b, h.KeptEdge old new a b ↔ h.Edge a b ∧ b ≠ old ∧ b ≠ new := by
    intro a b
    rw [KeptEdge, renamed_eq_new_iff.2 hroot, Ne, renamed_eq_new_iff, not_or]
  rw [hpaths]
  constructor
  · intro hp
    suffices (v ≠ old ∧ v ≠ new) ∧
        ReflTransGen (fun a b ↦ h.Edge a b ∧ (a ≠ old ∧ a ≠ new) ∧ b ≠ old ∧ b ≠ new) u v from
      this.2
    clear hv hpaths
    -- the path has not come to either, so it cannot change between them
    induction hp with
    | refl => exact ⟨hu, .refl⟩
    | tail _ hstep ih =>
      obtain ⟨hx, hpath⟩ := ih
      rcases hstep with hedge | heq
      · obtain ⟨he, hy⟩ := (hkept _ _).1 hedge
        exact ⟨hy, hpath.tail ⟨he, hx, hy⟩⟩
      · rcases renamed_eq_renamed_iff.1 heq with rfl | ⟨hx', -⟩ | ⟨hx', -⟩
        · exact ⟨hx, hpath⟩
        · exact absurd hx' hx.1
        · exact absurd hx' hx.2
  · refine ReflTransGen.mono (fun a b hstep ↦ ?_) _ _
    exact .inl ((hkept a b).2 ⟨hstep.1, hstep.2.2⟩)

end WellFormed

/-! ## Annotations -/

/-- The annotations that are transferred are those there are before. -/
theorem attributes_transferAttributes_congr {k : Hierarchy} (heq : k.attributes = h.attributes) :
    (k.transferAttributes old new).attributes = (h.transferAttributes old new).attributes := by
  rw [transferAttributes, transferAttributes, heq]
  split
  · exact heq
  · rfl

theorem ownAttributes_transferAttributes :
    (h.transferAttributes old new).ownAttributes = h.ownAttributes := by
  rw [transferAttributes]
  split <;> rfl

namespace WellFormed

/-- Edges play no part in what becomes of the annotations. -/
private theorem rewired_transferEdges (hw : h.WellFormed) :
    Rewired (h.insertNode new) ((h.insertNode new).transferEdges old new) :=
  .transferEdges (hw.mirrored.insertNode new) (hasType_insertNode.2 (.inl rfl))

theorem attributes_replaceNode (hw : h.WellFormed) :
    (h.replaceNode old new).attributes =
      (h.transferAttributes old new).attributes.erase old := by
  have hwired : ((h.insertNode new).transferEdges old new).attributes = h.attributes :=
    hw.rewired_transferEdges.attributes_eq.trans attributes_insertNode
  rw [← attributes_transferAttributes_congr hwired, Hierarchy.replaceNode, attributes_advance]
  split
  · exact rewired_makeRoot.attributes_eq
  · rfl

theorem ownAttributes_replaceNode (hw : h.WellFormed) :
    (h.replaceNode old new).ownAttributes = h.ownAttributes := by
  have hwired : ((h.insertNode new).transferEdges old new).ownAttributes = h.ownAttributes :=
    hw.rewired_transferEdges.ownAttributes_eq.trans ownAttributes_insertNode
  rw [Hierarchy.replaceNode, ownAttributes_advance]
  split
  · exact rewired_makeRoot.ownAttributes_eq.trans (ownAttributes_transferAttributes.trans hwired)
  · exact ownAttributes_transferAttributes.trans hwired

/-- Only members have annotations. -/
theorem attributeOf?_eq_none (hw : h.WellFormed) (ht : ¬ h.hasType t) :
    h.attributeOf? t key = none := by
  have hnone : h.attributes.get? t = none :=
    Option.not_isSome_iff_eq_none.1 (mt (hw.annotated t) ht)
  rw [attributeOf?, hnone, Option.bind_none]

/-- **The annotations of `new` are its own, and those of `old` where it has none.** -/
theorem attributeOf?_replaceNode (hw : h.WellFormed) (hne : new ≠ old) :
    (h.replaceNode old new).attributeOf? t key =
      if t = old then none
      else if t = new then (h.attributeOf? new key).or (h.attributeOf? old key)
      else h.attributeOf? t key := by
  rw [attributeOf?, hw.attributes_replaceNode, FinMap.get?_erase]
  split
  · rfl
  · rename_i ht
    rw [transferAttributes]
    split
    · rename_i hnone
      have hold : h.attributeOf? old key = none := by
        rw [attributeOf?, hnone]
        rfl
      split
      · rename_i heq
        rw [hold, Option.or_none, heq]
        rfl
      · rfl
    · rename_i attributes hsome
      have hold : h.attributeOf? old key = attributes.get? key := by
        rw [attributeOf?, hsome]
        rfl
      have hown : (h.attributes.erase old).getD new ∅ = h.attributesOf new := by
        rw [FinMap.getD, FinMap.get?_erase, if_neg hne]
        rfl
      rw [FinMap.get?_upsert, hown, FinMap.get?_erase, if_neg ht]
      split
      · rw [hold, ← get?_attributesOf]
        exact Attributes.get?_fill
      · rfl

end WellFormed

/-! ## A name that is new -/

/-- Members are renamed back to what they were. -/
theorem renamed_renamed_of_hasType (hfresh : ¬ h.hasType new) (ht : h.hasType t) :
    renamed new old (renamed old new t) = t :=
  renamed_renamed fun heq ↦ hfresh (heq ▸ ht)

namespace WellFormed

section Fresh

variable (hw : h.WellFormed) (hold : h.hasType old) (hne : new ≠ old) (hfresh : ¬ h.hasType new)
  (hnamed : ∃ name, new = .named name)

include hw hfresh

/-- No two members come to be called alike, so every edge is kept. -/
theorem keptEdge_of_edge (he : h.Edge a b) : h.KeptEdge old new a b := by
  refine ⟨he, fun heq ↦ ?_⟩
  rcases renamed_eq_renamed_iff.1 heq with hroot | ⟨-, hroot⟩ | ⟨hb, -⟩
  · exact hw.not_edge_root a (hroot ▸ he)
  · exact hfresh (hroot ▸ hw.hasType_root)
  · exact hfresh (hb ▸ hw.mirrored.hasType_right he)

include hne

/-- Paths lead where they led. -/
theorem reflTransGen_renamed_iff (hu : u ≠ new) (hv : v ≠ new) :
    ReflTransGen (h.replaceNode old new).Edge (renamed old new u) (renamed old new v) ↔
      ReflTransGen h.Edge u v := by
  rw [hw.reflTransGen_replaceNode_iff hne]
  constructor
  · -- `new` had no edges, so a visit to it is a visit to `old`
    intro hp
    have hback : ReflTransGen h.Edge (renamed new old u) (renamed new old v) := by
      refine ReflTransGen.lift' (renamed new old) (fun a b hstep ↦ ?_) _ _ hp
      rcases hstep with ⟨he, -⟩ | heq
      · have ha : a ≠ new := fun ha ↦ hfresh (ha ▸ hw.mirrored.hasType_left he)
        have hb : b ≠ new := fun hb ↦ hfresh (hb ▸ hw.mirrored.hasType_right he)
        rw [Function.onFun, renamed_of_ne ha, renamed_of_ne hb]
        exact .single he
      · have hsame : renamed new old a = renamed new old b := by
          rw [renamed_eq_renamed_iff] at heq ⊢
          tauto
        rw [Function.onFun, hsame]
    rwa [renamed_of_ne hu, renamed_of_ne hv] at hback
  · intro hp
    exact ReflTransGen.mono (fun a b he ↦ .inl (hw.keptEdge_of_edge hfresh he)) _ _ hp

/-- Types are annotated as they were. -/
theorem attributeOf?_renamed (ht : t ≠ new) :
    (h.replaceNode old new).attributeOf? (renamed old new t) key = h.attributeOf? t key := by
  rw [hw.attributeOf?_replaceNode hne]
  by_cases hto : t = old
  · rw [hto, renamed_self, if_neg hne, if_pos rfl, hw.attributeOf?_eq_none hfresh, Option.none_or]
  · rw [renamed_of_ne hto, if_neg hto, if_neg ht]

include hold

theorem hasType_renamed_iff (ht : t ≠ new) :
    (h.replaceNode old new).hasType (renamed old new t) ↔ h.hasType t := by
  rw [hw.hasType_replaceNode hold hne]
  constructor
  · rintro ⟨t', ht', heq⟩
    rwa [← renamed_renamed ht, ← heq, renamed_renamed_of_hasType hfresh ht']
  · exact fun hmem ↦ ⟨t, hmem, rfl⟩

include hnamed

/-- Types are answered about as they were. -/
theorem answer_inquireSubsumes_renamed (hu : u ≠ new) (hv : v ≠ new) :
    ((h.replaceNode old new).inquireSubsumes (renamed old new u) (renamed old new v)).answer
        (h.replaceNode old new) = (h.inquireSubsumes u v).answer h := by
  have hk : (h.replaceNode old new).WellFormed := hw.replaceNode hold hne hnamed
  have hsame : renamed old new u = renamed old new v ↔ u = v := by
    rw [renamed_eq_renamed_iff]
    exact or_iff_left fun heither ↦ heither.elim (hv ·.2) (hu ·.1)
  have hreserved : ∀ {t u : Ty}, (∀ name, u ≠ .named name) →
      (renamed old new t = u ↔ t = u) := by
    obtain ⟨_, rfl⟩ := hnamed
    obtain ⟨_, rfl⟩ := hw.named old hold
    exact renamed_eq_reserved_iff
  rw [Bool.eq_iff_iff, hk.answer_inquireSubsumes_iff_or, hw.answer_inquireSubsumes_iff_or, hsame,
    hw.hasType_renamed_iff hold hne hfresh hu, hw.hasType_renamed_iff hold hne hfresh hv,
    hw.reflTransGen_renamed_iff hne hfresh hu hv, hreserved fun _ ↦ Ty.noConfusion,
    hreserved fun _ ↦ Ty.noConfusion]

/-! ### Replacing back -/

theorem root_replaceNode_replaceNode :
    ((h.replaceNode old new).replaceNode new old).root = h.root := by
  rw [(hw.replaceNode hold hne hnamed).root_replaceNode hne.symm, hw.root_replaceNode hne,
    renamed_renamed_of_hasType hfresh hw.hasType_root]

theorem hasType_replaceNode_replaceNode :
    ((h.replaceNode old new).replaceNode new old).hasType t ↔ h.hasType t := by
  have hk : (h.replaceNode old new).WellFormed := hw.replaceNode hold hne hnamed
  rw [hk.hasType_replaceNode (hw.hasType_replaceNode_new hold hne) hne.symm]
  constructor
  · rintro ⟨t', ht', rfl⟩
    obtain ⟨t, ht, rfl⟩ := (hw.hasType_replaceNode hold hne).1 ht'
    rwa [renamed_renamed_of_hasType hfresh ht]
  · intro ht
    exact ⟨_, (hw.hasType_replaceNode hold hne).2 ⟨t, ht, rfl⟩,
      renamed_renamed_of_hasType hfresh ht⟩

theorem edge_replaceNode_replaceNode :
    ((h.replaceNode old new).replaceNode new old).Edge a b ↔ h.Edge a b := by
  have hk : (h.replaceNode old new).WellFormed := hw.replaceNode hold hne hnamed
  have hleft : ∀ {a b}, h.Edge a b → renamed new old (renamed old new a) = a := fun he ↦
    renamed_renamed_of_hasType hfresh (hw.mirrored.hasType_left he)
  have hright : ∀ {a b}, h.Edge a b → renamed new old (renamed old new b) = b := fun he ↦
    renamed_renamed_of_hasType hfresh (hw.mirrored.hasType_right he)
  have hroot := hw.root_replaceNode_replaceNode hold hne hfresh hnamed
  rw [hk.root_replaceNode hne.symm] at hroot
  rw [hk.edge_replaceNode hne.symm, hroot]
  constructor
  · rintro ⟨-, a', b', he', rfl, rfl⟩
    obtain ⟨-, a, b, he, rfl, rfl⟩ := (hw.edge_replaceNode hne).1 he'
    rwa [hleft he, hright he]
  · intro he
    have hab : a ≠ b := fun heq ↦ hw.irrefl a (heq ▸ he)
    have hb : b ≠ h.root := fun heq ↦ hw.not_edge_root a (heq ▸ he)
    refine ⟨⟨hab, hb⟩, renamed old new a, renamed old new b, ?_, hleft he, hright he⟩
    refine (hw.edge_replaceNode_iff_map hne).2 ⟨fun heq ↦ hab ?_, a, b, ?_, rfl, rfl⟩
    · rw [← hleft he, heq, hright he]
    · exact hw.keptEdge_of_edge hfresh he

theorem attributeOf?_replaceNode_replaceNode :
    ((h.replaceNode old new).replaceNode new old).attributeOf? t key = h.attributeOf? t key := by
  have hk : (h.replaceNode old new).WellFormed := hw.replaceNode hold hne hnamed
  have hnone : h.attributeOf? new key = none := hw.attributeOf?_eq_none hfresh
  have hnew : (h.replaceNode old new).attributeOf? new key = h.attributeOf? old key := by
    rw [hw.attributeOf?_replaceNode hne, if_neg hne, if_pos rfl, hnone, Option.none_or]
  have hgone : (h.replaceNode old new).attributeOf? old key = none := by
    rw [hw.attributeOf?_replaceNode hne, if_pos rfl]
  rw [hk.attributeOf?_replaceNode hne.symm, hnew, hgone, Option.none_or]
  split
  · rename_i heq
    rw [heq, hnone]
  · rename_i ht
    split
    · rename_i heq
      rw [heq]
    · rename_i ht'
      rw [hw.attributeOf?_replaceNode hne, if_neg ht', if_neg ht]

/-- **What has got a new name can be given its old one again**, and nothing has changed. -/
theorem sameAs_replaceNode_replaceNode :
    ((h.replaceNode old new).replaceNode new old).sameAs h := by
  have hk : (h.replaceNode old new).WellFormed := hw.replaceNode hold hne hnamed
  have hback : ((h.replaceNode old new).replaceNode new old).WellFormed :=
    hk.replaceNode (hw.hasType_replaceNode_new hold hne) hne.symm (hw.named old hold)
  have hown : ((h.replaceNode old new).replaceNode new old).ownAttributes = h.ownAttributes :=
    hk.ownAttributes_replaceNode.trans hw.ownAttributes_replaceNode
  refine (hback.mirrored.sameAs_iff hw.mirrored).2 ⟨?_, ⟨fun t ↦ ?_, fun a b ↦ ?_⟩, hown, ?_⟩
  · exact hw.root_replaceNode_replaceNode hold hne hfresh hnamed
  · exact hw.hasType_replaceNode_replaceNode hold hne hfresh hnamed
  · exact hw.edge_replaceNode_replaceNode hold hne hfresh hnamed
  · intro t key
    exact hw.attributeOf?_replaceNode_replaceNode hold hne hfresh hnamed

end Fresh

end WellFormed

/-! ## Replacing by request -/

/-- What has become of `h` if `k` has been got from it by replacing `old` by `new`. -/
structure Identified (h k : Hierarchy) (old new : Ty) : Prop where
  hasType_iff : ∀ t, k.hasType t = true ↔ ∃ u, h.hasType u = true ∧ renamed old new u = t
  root_eq : k.root = renamed old new h.root
  /-- The annotations of `old` fill up those of `new`. -/
  attributeOf?_new : ∀ key,
    k.attributeOf? new key = (h.attributeOf? new key).or (h.attributeOf? old key)
  attributeOf?_of_ne : ∀ t, t ≠ old → t ≠ new → ∀ key, k.attributeOf? t key = h.attributeOf? t key
  ownAttributes_eq : k.ownAttributes = h.ownAttributes
  /-- A name that is new stands for what it replaces. -/
  subsumes_of_fresh : ¬ h.hasType new → ∀ u v, u ≠ new → v ≠ new →
    (k.inquireSubsumes (renamed old new u) (renamed old new v)).answer k =
      (h.inquireSubsumes u v).answer h
  attributeOf?_of_fresh : ¬ h.hasType new → ∀ t, t ≠ new → ∀ key,
    k.attributeOf? (renamed old new t) key = h.attributeOf? t key
  /-- If neither of the two is the root, paths may change between them. -/
  subsumes_of_ne_root : h.root ≠ old → h.root ≠ new →
    ∀ u v, h.hasType u = true → h.hasType v = true →
      ((k.inquireSubsumes (renamed old new u) (renamed old new v)).answer k = true ↔
        ReflTransGen (fun a b ↦ h.Edge a b ∨ a = old ∧ b = new ∨ a = new ∧ b = old) u v)
  /-- If one of the two is the root, `new` is the root, and above everything. -/
  root_of_eq_root : h.root = old ∨ h.root = new →
    k.root = new ∧ ∀ t, k.hasType t = true → (k.inquireSubsumes new t).answer k = true
  /-- If one of the two is the root, paths between other types do without both. -/
  subsumes_of_eq_root : h.root = old ∨ h.root = new →
    ∀ u v, h.hasType u = true → h.hasType v = true → u ≠ old ∧ u ≠ new → v ≠ old ∧ v ≠ new →
      ((k.inquireSubsumes u v).answer k = true ↔
        ReflTransGen (fun a b ↦ h.Edge a b ∧ (a ≠ old ∧ a ≠ new) ∧ b ≠ old ∧ b ≠ new) u v)

namespace WellFormed

theorem identified (hw : h.WellFormed) (hold : h.hasType old) (hne : new ≠ old)
    (hnamed : ∃ name, new = .named name) : Identified h (h.replaceNode old new) old new := by
  have hk : (h.replaceNode old new).WellFormed := hw.replaceNode hold hne hnamed
  have hmem : ∀ {t}, h.hasType t → (h.replaceNode old new).hasType (renamed old new t) :=
    fun ht ↦ (hw.hasType_replaceNode hold hne).2 ⟨_, ht, rfl⟩
  have hstays : ∀ {t}, h.hasType t → t ≠ old → (h.replaceNode old new).hasType t :=
    fun ht hto ↦ (hw.hasType_replaceNode hold hne).2 ⟨_, ht, renamed_of_ne hto⟩
  constructor
  case hasType_iff =>
    exact fun t ↦ hw.hasType_replaceNode hold hne
  case root_eq =>
    exact hw.root_replaceNode hne
  case attributeOf?_new =>
    intro key
    rw [hw.attributeOf?_replaceNode hne, if_neg hne, if_pos rfl]
  case attributeOf?_of_ne =>
    intro t hto htn key
    rw [hw.attributeOf?_replaceNode hne, if_neg hto, if_neg htn]
  case ownAttributes_eq =>
    exact hw.ownAttributes_replaceNode
  case subsumes_of_fresh =>
    intro hfresh u v hu hv
    exact hw.answer_inquireSubsumes_renamed hold hne hfresh hnamed hu hv
  case attributeOf?_of_fresh =>
    intro hfresh t ht key
    exact hw.attributeOf?_renamed hne hfresh ht
  case subsumes_of_ne_root =>
    intro hro hrn u v hu hv
    rw [hk.answer_inquireSubsumes_iff (hmem hu) (hmem hv)]
    exact hw.reflTransGen_replaceNode_of_ne_root hne hro hrn
  case root_of_eq_root =>
    intro hroot
    have hnew : (h.replaceNode old new).root = new := by
      rw [hw.root_replaceNode hne, renamed_eq_new_iff.2 hroot]
    refine ⟨hnew, fun t ht ↦ ?_⟩
    rw [hk.answer_inquireSubsumes_iff (hw.hasType_replaceNode_new hold hne) ht]
    have hpath : ReflTransGen (h.replaceNode old new).Edge (h.replaceNode old new).root t :=
      hk.reached t ht
    rwa [hnew] at hpath
  case subsumes_of_eq_root =>
    intro hroot u v hu hv hu' hv'
    rw [hk.answer_inquireSubsumes_iff (hstays hu hu'.1) (hstays hv hv'.1)]
    exact hw.reflTransGen_replaceNode_of_eq_root hne hroot hu' hv'

end WellFormed

/-- A request that is not refused replaces. -/
theorem value_replace {spelling : Spelling} {old new : String} (hold : h.hasType (.named old))
    (hne : new ≠ old) (hopen : spelling.reserves new = false) :
    (h.replace spelling old new).value = h.replaceNode (.named old) (.named new) := by
  rw [replace, if_neg hne.symm, if_pos hold,
    unlessReserved_eq fun name hname ↦ List.mem_singleton.1 hname ▸ hopen]
  rfl

/-- **Replacing identifies two types.** What becomes of the order is told apart by whether the new
name is taken and whether the root is involved; a name that is not taken can be taken back. -/
theorem Grown.replace_identifies (hg : h.Grown) (spelling : Spelling) (old new : String)
    (hold : h.hasType (.named old) = true) (hne : new ≠ old)
    (hopen : spelling.reserves new = false) :
    Identified h (h.replace spelling old new).value (.named old) (.named new) ∧
    (¬ h.hasType (.named new) → ∀ spelling' : Spelling, spelling'.reserves old = false →
      ((h.replace spelling old new).value.replace spelling' new old).value.sameAs h = true) := by
  have hw : h.WellFormed := hg.wellFormed
  have hne' : Ty.named new ≠ .named old := fun heq ↦ hne (Ty.named.inj heq)
  rw [value_replace hold hne hopen]
  refine ⟨hw.identified hold hne' ⟨new, rfl⟩, fun hfresh spelling' hopen' ↦ ?_⟩
  rw [value_replace (hw.hasType_replaceNode_new hold hne') hne.symm hopen']
  exact hw.sameAs_replaceNode_replaceNode hold hne' hfresh ⟨new, rfl⟩

/-- Of two types on a cycle one is replaced by the other, by a new name, and by the root. -/
theorem replace_identifies_knot :
    knot.Grown ∧
    ((knot.replace {} "b" "a").value.inquireSubsumes (.named "a") (.named "c")).answer
      (knot.replace {} "b" "a").value = true ∧
    ((knot.replace {} "b" "d").value.replace {} "d" "b").value.sameAs knot = true ∧
    (knot.replace {} "b" "r").value.root = .named "r" := by
  have hmerged := grown_knot.replace_identifies {} "b" "a" (by decide) (by decide) (by decide)
  have hrenamed := grown_knot.replace_identifies {} "b" "d" (by decide) (by decide) (by decide)
  have hrooted := grown_knot.replace_identifies {} "b" "r" (by decide) (by decide) (by decide)
  refine ⟨grown_knot, ?_, hrenamed.2 (by decide) {} (by decide),
    (hrooted.1.root_of_eq_root (.inr (by decide))).1⟩
  have hedge : knot.Edge (.named "b") (.named "c") := by
    rw [Edge]
    decide
  have horder := hmerged.1.subsumes_of_ne_root (by decide) (by decide) (.named "a") (.named "c")
    (by decide) (by decide)
  rw [renamed_of_ne (by decide), renamed_of_ne (by decide)] at horder
  -- the path steps from `a` to `b` as if they were one already
  exact horder.2 (.head (.inr (.inr ⟨rfl, rfl⟩)) (.single (.inl hedge)))

end Taxonomy.Hierarchy
