import Taxonomy.Hierarchy.Merge
import Taxonomy.Proofs.Hierarchy.WellFormed

/-!
# Merging keeps hierarchies well-formed

A merge adds the types of the source, then its edges but for those into the root, and then puts
under the root whatever has no parents yet (`edge_mergeStructure`). The type this is for is the root
of the source: it is the one type of a well-formed source that has no parents there.

A path in the source from its root is a path in the merge, except that it may come through the root
of the target, from where it can be walked anew.
-/

open Relation

namespace Taxonomy.Hierarchy

variable {h k source : Hierarchy} {a b t u : Ty} {l : List Ty}

/-! ## The three passes -/

/-- The target together with the types of the source. -/
def populated (h source : Hierarchy) : Hierarchy := source.types.toList.foldl insertNode h

/-- The target together with the types and the edges of the source. -/
def wired (h source : Hierarchy) : Hierarchy :=
  source.types.toList.foldl (fun k t ↦ (mergeEdges source k t).value) (h.populated source)

theorem value_mergeStructure :
    (h.mergeStructure source).value = source.types.toList.foldl adopt (h.wired source) := by
  rw [wired, ← Journaled.value_foldlM]
  rfl

theorem mem_toList_types : t ∈ source.types.toList ↔ source.hasType t := by
  rw [FinSet.mem_toList, mem_types]

theorem hasType_populated : (h.populated source).hasType u ↔ source.hasType u ∨ h.hasType u := by
  rw [← @mem_toList_types source, populated]
  generalize source.types.toList = l
  induction l generalizing h with
  | nil => simp
  | cons t rest ih =>
    rw [List.foldl_cons, ih, hasType_insertNode, List.mem_cons]
    tauto

theorem edge_populated : (h.populated source).Edge a b ↔ h.Edge a b := by
  rw [populated]
  generalize source.types.toList = l
  induction l generalizing h with
  | nil => rfl
  | cons t rest ih => rw [List.foldl_cons, ih, edge_insertNode]

@[simp] theorem root_populated : (h.populated source).root = h.root :=
  foldl_frame _ fun _ _ ↦ root_insertNode

@[simp] theorem attributes_populated : (h.populated source).attributes = h.attributes :=
  foldl_frame _ fun _ _ ↦ attributes_insertNode

theorem Mirrored.populated (hm : h.Mirrored) : (h.populated source).Mirrored :=
  List.foldlRecOn _ _ hm fun _ hk t _ ↦ hk.insertNode t

theorem Rewired.mergeEdges (hk : Rewired h k) (hparents : ∀ p ∈ source.parentsOf t, h.hasType p)
    (ht : h.hasType t) : Rewired h (mergeEdges source k t).value := by
  rw [Hierarchy.mergeEdges]
  split
  · exact hk
  · exact hk.linkAll hparents ht

/-- One type gets the parents that it has in the source, unless it is the root of the target. -/
theorem edge_mergeEdges : (mergeEdges source h t).value.Edge a b ↔
    h.Edge a b ∨ b ≠ h.root ∧ a ∈ source.parentsOf b ∧ b = t := by
  rw [mergeEdges]
  split
  · rename_i hroot
    refine ⟨.inl, fun he ↦ he.elim id fun hnew ↦ ?_⟩
    exact absurd (hnew.2.2.trans hroot) hnew.1
  · rename_i hroot
    rw [Journaled.value_pure, edge_linkAll]
    by_cases hb : b = t
    · subst hb
      simp [hroot]
    · simp [hb]

theorem root_mergeEdges : (mergeEdges source h t).value.root = h.root := by
  rw [mergeEdges]
  split
  · rfl
  · exact root_linkAll

theorem edge_foldl_mergeEdges :
    (l.foldl (fun k t ↦ (mergeEdges source k t).value) h).Edge a b ↔
      h.Edge a b ∨ b ≠ h.root ∧ a ∈ source.parentsOf b ∧ b ∈ l := by
  induction l generalizing h with
  | nil => simp
  | cons t rest ih =>
    rw [List.foldl_cons, ih, edge_mergeEdges, root_mergeEdges, List.mem_cons]
    tauto

theorem Rewired.adopt (hk : Rewired h k) (hroot : h.hasType h.root) (ht : h.hasType t) :
    Rewired h (k.adopt t) := by
  rw [Hierarchy.adopt]
  split
  · refine hk.link ?_ ht
    rwa [hk.root_eq]
  · exact hk

theorem edge_adopt (hm : h.Mirrored) : (h.adopt t).Edge a b ↔
    h.Edge a b ∨ (a = h.root ∧ b ≠ h.root ∧ ∀ p, ¬ h.Edge p b) ∧ b = t := by
  have hlost : (t ≠ h.root && (h.parentsOf t).isEmpty) = true ↔
      t ≠ h.root ∧ ∀ p, ¬ h.Edge p t := by
    rw [Bool.and_eq_true, decide_eq_true_eq, hm.parentsOf_isEmpty_iff]
  rw [adopt]
  split
  · rename_i htest
    rw [edge_link]
    by_cases hb : b = t
    · subst hb
      simp [hlost.1 htest]
    · simp [hb]
  · rename_i htest
    refine ⟨.inl, fun he ↦ he.elim id ?_⟩
    rintro ⟨⟨-, hlost'⟩, rfl⟩
    exact absurd (hlost.2 hlost') htest

theorem edge_foldl_adopt (hm : h.Mirrored) (hroot : h.hasType h.root) (hl : ∀ t ∈ l, h.hasType t) :
    (l.foldl adopt h).Edge a b ↔
      h.Edge a b ∨ (a = h.root ∧ b ≠ h.root ∧ ∀ p, ¬ h.Edge p b) ∧ b ∈ l := by
  induction l generalizing h with
  | nil => simp
  | cons t rest ih =>
    obtain ⟨ht, hrest⟩ := List.forall_mem_cons.1 hl
    have hnext : Rewired h (h.adopt t) := (Rewired.refl h).adopt hroot ht
    rw [List.foldl_cons, ih (hnext.mirrored hm) ?_ ?_, hnext.root_eq, List.mem_cons]
    · simp only [edge_adopt hm]
      by_cases hb : b = t
      · -- whatever `t` gets it has now, and is left alone if it occurs again
        subst hb
        by_cases hnone : b ≠ h.root ∧ ∀ p, ¬ h.Edge p b
        · simp [hnone]
        · simp [hnone]
      · simp [hb]
    · rwa [hnext.root_eq, hnext.hasType_eq]
    · intro u hu
      rw [hnext.hasType_eq]
      exact hrest u hu

/-! ## The structure of a merge -/

theorem rewired_wired (hs : source.Mirrored) : Rewired (h.populated source) (h.wired source) := by
  refine (Rewired.refl _).foldl fun k hk t ht ↦ hk.mergeEdges (fun p hp ↦ ?_) ?_
  · exact hasType_populated.2 (.inl (hs.hasType_left ((hs.mem_parentsOf_iff p t).1 hp)))
  · exact hasType_populated.2 (.inl (mem_toList_types.1 ht))

theorem edge_wired (hs : source.Mirrored) :
    (h.wired source).Edge a b ↔ h.Edge a b ∨ b ≠ h.root ∧ source.Edge a b := by
  rw [wired, edge_foldl_mergeEdges, edge_populated, root_populated, hs.mem_parentsOf_iff,
    mem_toList_types, and_iff_left_of_imp hs.hasType_right]

/-- The passes after the first do nothing but rewire what the first has made. -/
theorem rewired_mergeStructure (hs : source.Mirrored) (hroot : h.hasType h.root) :
    Rewired (h.populated source) (h.mergeStructure source).value := by
  rw [value_mergeStructure]
  refine (rewired_wired hs).foldl fun k hk t ht ↦ hk.adopt ?_ ?_
  · rw [root_populated, hasType_populated]
    exact .inr hroot
  · exact hasType_populated.2 (.inl (mem_toList_types.1 ht))

theorem hasType_mergeStructure (hs : source.Mirrored) (hroot : h.hasType h.root) :
    (h.mergeStructure source).value.hasType u ↔ source.hasType u ∨ h.hasType u := by
  rw [(rewired_mergeStructure hs hroot).hasType_eq, hasType_populated]

/-- **The edges of a merge.** -/
theorem edge_mergeStructure (hm : h.Mirrored) (hs : source.Mirrored) (hroot : h.hasType h.root) :
    (h.mergeStructure source).value.Edge a b ↔
      h.Edge a b ∨ b ≠ h.root ∧ (source.Edge a b ∨
        a = h.root ∧ source.hasType b ∧ ∀ p, ¬ h.Edge p b ∧ ¬ source.Edge p b) := by
  have hwired : Rewired (h.populated source) (h.wired source) := rewired_wired hs
  have hroot' : (h.wired source).root = h.root := hwired.root_eq.trans root_populated
  have hmem : ∀ u, (h.wired source).hasType u ↔ source.hasType u ∨ h.hasType u := fun u ↦ by
    rw [hwired.hasType_eq, hasType_populated]
  rw [value_mergeStructure, edge_foldl_adopt (hwired.mirrored hm.populated) ?_ ?_]
  · simp only [edge_wired hs, hroot', mem_toList_types]
    by_cases hb : b = h.root
    · simp [hb]
    · simp only [hb, ne_eq, not_false_eq_true, true_and, not_or]
      tauto
  · rw [hroot', hmem]
    exact .inr hroot
  · exact fun t ht ↦ (hmem t).2 (.inl (mem_toList_types.1 ht))

namespace WellFormed

/-- The root of the target leads to whatever it leads to in the target or the root of the source in
the source. -/
theorem reflTransGen_mergeStructure (hw : h.WellFormed) (hs : source.WellFormed)
    (hu : ReflTransGen h.Edge h.root u ∨ ReflTransGen source.Edge source.root u) :
    ReflTransGen (h.mergeStructure source).value.Edge h.root u := by
  have hedge : ∀ a b, (h.mergeStructure source).value.Edge a b ↔
      h.Edge a b ∨ b ≠ h.root ∧ (source.Edge a b ∨
        a = h.root ∧ source.hasType b ∧ ∀ p, ¬ h.Edge p b ∧ ¬ source.Edge p b) :=
    fun a b ↦ edge_mergeStructure hw.mirrored hs.mirrored hw.hasType_root
  have htarget : ∀ u, ReflTransGen h.Edge h.root u →
      ReflTransGen (h.mergeStructure source).value.Edge h.root u := fun u hu ↦
    ReflTransGen.mono (fun a b he ↦ (hedge a b).2 (.inl he)) _ _ hu
  rcases hu with hu | hu
  · exact htarget u hu
  · induction hu with
    | refl =>
      by_cases hold : h.hasType source.root
      · exact htarget _ (hw.reached _ hold)
      · -- no target member, so an edge into it is neither there before nor dropped
        have hne : source.root ≠ h.root := fun heq ↦ hold (heq ▸ hw.hasType_root)
        have hlost : ∀ p, ¬ h.Edge p source.root ∧ ¬ source.Edge p source.root := fun p ↦
          ⟨fun he ↦ hold (hw.mirrored.hasType_right he), hs.not_edge_root p⟩
        exact .single ((hedge _ _).2 (.inr ⟨hne, .inr ⟨rfl, hs.hasType_root, hlost⟩⟩))
    | @tail x y _ hxy ih =>
      by_cases hy : y = h.root
      · -- the path comes through the root of the target and is walked anew from there
        rw [hy]
      · exact ih.tail ((hedge x y).2 (.inr ⟨hy, .inl hxy⟩))

/-- The structure of a merge before it is annotated. -/
theorem mergeStructure (hw : h.WellFormed) (hs : source.WellFormed) :
    (h.mergeStructure source).value.WellFormed := by
  have hrewired := rewired_mergeStructure hs.mirrored hw.hasType_root
  have hroot : (h.mergeStructure source).value.root = h.root :=
    hrewired.root_eq.trans root_populated
  have hmem : ∀ u, (h.mergeStructure source).value.hasType u ↔ source.hasType u ∨ h.hasType u :=
    fun u ↦ hasType_mergeStructure hs.mirrored hw.hasType_root
  have hedge : ∀ a b, (h.mergeStructure source).value.Edge a b ↔
      h.Edge a b ∨ b ≠ h.root ∧ (source.Edge a b ∨
        a = h.root ∧ source.hasType b ∧ ∀ p, ¬ h.Edge p b ∧ ¬ source.Edge p b) :=
    fun a b ↦ edge_mergeStructure hw.mirrored hs.mirrored hw.hasType_root
  refine ⟨hrewired.mirrored hw.mirrored.populated, ?_, ?_, ?_, ?_, ?_, ?_⟩
  · intro u hu
    rcases (hmem u).1 hu with hu | hu
    · exact hs.named u hu
    · exact hw.named u hu
  · rw [hroot, hmem]
    exact .inr hw.hasType_root
  · intro a ha
    rw [hroot, hedge] at ha
    rcases ha with ha | ⟨hne, -⟩
    · exact hw.not_edge_root a ha
    · exact hne rfl
  · intro u hu
    rcases (hedge u u).1 hu with hu | ⟨hne, hu | ⟨heq, -⟩⟩
    · exact hw.irrefl u hu
    · exact hs.irrefl u hu
    · exact hne heq
  · intro u hu
    rw [hroot]
    apply hw.reflTransGen_mergeStructure hs
    rcases (hmem u).1 hu with hu | hu
    · exact .inr (hs.reached u hu)
    · exact .inl (hw.reached u hu)
  · intro u hu
    rw [hrewired.attributes_eq, attributes_populated] at hu
    exact (hmem u).2 (.inr (hw.annotated u hu))

end WellFormed

/-! ## Annotations -/

/-- What does not fail has not failed on the way. -/
private theorem exists_of_bind_eq_ok {ε α β : Type} {x : Except ε α} {f : α → Except ε β} {last : β}
    (hok : x >>= f = .ok last) : ∃ next, x = .ok next ∧ f next = .ok last := by
  cases x with
  | error conflict => cases hok
  | ok next => exact ⟨next, rfl, hok⟩

/-- What each step of a fold that does not fail keeps, the fold keeps. -/
private theorem of_foldlM_eq_ok {ε α β : Type} (P : β → Prop) {f : β → α → Except ε β} {xs : List α}
    {first last : β} (hok : xs.foldlM f first = .ok last) (hfirst : P first)
    (hf : ∀ b x b', P b → x ∈ xs → f b x = .ok b' → P b') : P last := by
  induction xs generalizing first with
  | nil => exact Except.ok.inj hok ▸ hfirst
  | cons x rest ih =>
    rw [List.foldlM_cons] at hok
    obtain ⟨next, hx, hrest⟩ := exists_of_bind_eq_ok hok
    refine ih hrest (hf first x next hfirst List.mem_cons_self hx) fun b y b' hb hy ↦ ?_
    exact hf b y b' hb (List.mem_cons_of_mem x hy)

/-- What the annotations of one type may change. -/
theorem sameStructure_mergeAttributes {attributes : Attributes}
    (hok : h.mergeAttributes t attributes = .ok k) :
    SameStructure h k ∧ ∀ u, k.attributes.contains u → u = t ∨ h.attributes.contains u := by
  rw [mergeAttributes] at hok
  split at hok
  · obtain rfl := Except.ok.inj hok
    exact ⟨⟨rfl, rfl, rfl⟩, fun u hu ↦ FinMap.contains_insert.1 hu⟩
  · cases hok

/-- Merging annotations changes nothing else and annotates what one of the two annotates. -/
theorem sameStructure_mergeAnnotations (hok : h.mergeAnnotations source = .ok k) :
    SameStructure h k ∧ ∀ u, k.attributes.contains u →
      h.attributes.contains u ∨ source.attributes.contains u := by
  rw [mergeAnnotations] at hok
  obtain ⟨annotated, hfold, hown⟩ := exists_of_bind_eq_ok hok
  have hannotated : SameStructure h annotated ∧ ∀ u, annotated.attributes.contains u →
      h.attributes.contains u ∨ source.attributes.contains u := by
    refine of_foldlM_eq_ok (fun k ↦ SameStructure h k ∧ ∀ u, k.attributes.contains u →
      h.attributes.contains u ∨ source.attributes.contains u) hfold ⟨.refl h, fun u hu ↦ .inl hu⟩ ?_
    intro b e b' hb he hb'
    obtain ⟨hsame, hcontains⟩ := sameStructure_mergeAttributes hb'
    refine ⟨hb.1.trans hsame, fun u hu ↦ ?_⟩
    rcases hcontains u hu with rfl | hu
    · -- the entry that is being merged is one of the source
      refine .inr ?_
      rw [FinMap.contains, FinMap.mem_entries_iff.1 he]
      rfl
    · exact hb.2 u hu
  rw [mergeOwnAttributes] at hown
  split at hown
  · obtain rfl := Except.ok.inj hown
    exact ⟨hannotated.1.trans ⟨rfl, rfl, rfl⟩, hannotated.2⟩
  · cases hown

/-! ## Merges -/

theorem value_merge : (h.merge source).value =
    match (h.mergeStructure source).value.mergeAnnotations source with
    | .error conflict => .error conflict
    | .ok annotated => .ok { annotated with generation := h.laterGeneration source } := by
  rw [merge, Journaled.value_bind]
  cases (h.mergeStructure source).value.mergeAnnotations source <;> rfl

/-- A merge that is not refused comes from merging structures and then annotations. -/
theorem exists_of_merge_eq_ok (hok : (h.merge source).value = .ok k) :
    ∃ annotated, (h.mergeStructure source).value.mergeAnnotations source = .ok annotated ∧
      k = { annotated with generation := h.laterGeneration source } := by
  rw [value_merge] at hok
  split at hok
  · cases hok
  · rename_i annotated heq
    exact ⟨annotated, heq, (Except.ok.inj hok).symm⟩

theorem WellFormed.merge (hw : h.WellFormed) (hs : source.WellFormed)
    (hok : (h.merge source).value = .ok k) : k.WellFormed := by
  obtain ⟨annotated, hannotated, rfl⟩ := exists_of_merge_eq_ok hok
  obtain ⟨hsame, hcontains⟩ := sameStructure_mergeAnnotations hannotated
  have hjoined := hw.mergeStructure hs
  refine hjoined.of_sameStructure ⟨hsame.root_eq, hsame.parents_eq, hsame.children_eq⟩ fun u hu ↦ ?_
  rcases hcontains u hu with hu | hu
  · exact hjoined.annotated u hu
  · exact (hasType_mergeStructure hs.mirrored hw.hasType_root).2 (.inl (hs.annotated u hu))

end Taxonomy.Hierarchy
