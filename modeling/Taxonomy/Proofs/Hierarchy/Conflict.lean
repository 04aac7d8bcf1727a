import Taxonomy.Proofs.Hierarchy.Generation

/-!
# When merges are refused

A merge looks at annotations last, after the structures have been joined. Joining them leaves the
annotations of the target alone, though, and filling up the annotations of one type leaves those of
the others alone. So whether a merge is refused, and over what, can be read off the two hierarchies
as they are given: `value_serve_merge` has a merge as a look for a conflict, and a union that cannot
fail if there is none. What either comes to is `Grown.merge_unites_or_names_conflict`.

Only which of several types a refusal names depends on the order in which the types are looked at
(`foldlM_mergeAttributes_of_perm`).
-/

namespace Taxonomy

variable {h k source : Hierarchy} {t u : Ty} {attributes : Attributes}
  {entries : List (Ty × Attributes)} {conflict : Conflict}

namespace Hierarchy

/-! ## The annotations of one type -/

/-- The annotations of a type. -/
def attributesOf (h : Hierarchy) (t : Ty) : Attributes := h.attributes.getD t ∅

theorem get?_attributesOf (key : String) :
    (h.attributesOf t).get? key = h.attributeOf? t key := by
  rw [attributesOf, FinMap.getD, attributeOf?]
  cases h.attributes.get? t with
  | none => exact FinMap.get?_empty key
  | some _ => rfl

/-- The conflict between the annotations of one type and others for it. -/
def typeConflict? (h : Hierarchy) (t : Ty) (attributes : Attributes) : Option Conflict :=
  ((h.attributesOf t).clash? attributes).map (.ofType (t.name?.getD ""))

/-- Fills up the annotations of one type. -/
def annotate (h : Hierarchy) (t : Ty) (attributes : Attributes) : Hierarchy :=
  { h with attributes := h.attributes.insert t ((h.attributesOf t).fill attributes) }

theorem mergeAttributes_eq : h.mergeAttributes t attributes =
    (h.typeConflict? t attributes).elim (.ok (h.annotate t attributes)) .error := by
  rw [mergeAttributes, Attributes.union, typeConflict?, attributesOf]
  cases (h.attributes.getD t ∅).clash? attributes <;> rfl

theorem attributesOf_annotate : (h.annotate t attributes).attributesOf u =
    if u = t then (h.attributesOf t).fill attributes else h.attributesOf u := by
  rw [attributesOf, FinMap.getD, annotate, FinMap.get?_insert]
  split <;> rfl

/-! ## The annotations of all types -/

/-- The first conflict over annotations of a type. -/
def firstConflict? (h : Hierarchy) (entries : List (Ty × Attributes)) : Option Conflict :=
  entries.findSome? fun e ↦ h.typeConflict? e.1 e.2

/-- Fills up the annotations of types. -/
def annotateAll (h : Hierarchy) (entries : List (Ty × Attributes)) : Hierarchy :=
  entries.foldl (fun h e ↦ h.annotate e.1 e.2) h

/-- Filling up the annotations of a type does not show at other types. -/
theorem firstConflict?_annotate (hnot : ∀ e ∈ entries, t ≠ e.1) :
    (h.annotate t attributes).firstConflict? entries = h.firstConflict? entries := by
  induction entries with
  | nil => rfl
  | cons e rest ih =>
    obtain ⟨he, hrest⟩ := List.forall_mem_cons.1 hnot
    have hsame : (h.annotate t attributes).typeConflict? e.1 e.2 = h.typeConflict? e.1 e.2 := by
      rw [typeConflict?, typeConflict?, attributesOf_annotate, if_neg he.symm]
    rw [firstConflict?, List.findSome?_cons, hsame, ← firstConflict?, ih hrest]
    rfl

/-- **A pass over the types fails over the first conflict there is from the start.** -/
theorem foldlM_mergeAttributes (hentries : entries.Pairwise fun a b ↦ a.1 ≠ b.1) :
    entries.foldlM (fun h e ↦ h.mergeAttributes e.1 e.2) h =
      (h.firstConflict? entries).elim (.ok (h.annotateAll entries)) .error := by
  induction entries generalizing h with
  | nil => rfl
  | cons e rest ih =>
    obtain ⟨hnot, hrest⟩ := List.pairwise_cons.1 hentries
    rw [List.foldlM_cons, mergeAttributes_eq, firstConflict?, List.findSome?_cons]
    cases h.typeConflict? e.1 e.2 with
    | some conflict => rfl
    | none =>
      refine (ih hrest).trans ?_
      rw [firstConflict?_annotate hnot]
      rfl

theorem attributesOf_annotateAll (hentries : entries.Perm source.attributes.entries) :
    (h.annotateAll entries).attributesOf u = (h.attributesOf u).fill (source.attributesOf u) := by
  have hkeys : entries.Pairwise fun a b ↦ a.1 ≠ b.1 := FinMap.pairwise_ne hentries
  have hlookup : source.attributesOf u = (entries.lookup u).getD ∅ := by
    rw [FinMap.lookup_eq hentries]
    rfl
  rw [hlookup]
  clear hentries hlookup
  induction entries generalizing h with
  | nil => rfl
  | cons e rest ih =>
    obtain ⟨t, attributes⟩ := e
    obtain ⟨hnot, hrest⟩ := List.pairwise_cons.1 hkeys
    rw [annotateAll, List.foldl_cons, ← annotateAll, ih hrest, attributesOf_annotate,
      List.lookup_cons]
    by_cases hu : u = t
    · -- the rest has no entry for this type any more
      subst hu
      have hnone : rest.lookup u = none := List.lookup_eq_none_iff.2 fun e he ↦
        bne_iff_ne.2 (hnot e he)
      rw [if_pos rfl, hnone, beq_self_eq_true]
      rfl
    · rw [if_neg hu, beq_eq_false_iff_ne.2 hu]

theorem ownAttributes_annotateAll : (h.annotateAll entries).ownAttributes = h.ownAttributes :=
  foldl_frame _ fun _ _ ↦ rfl

/-! ## All annotations -/

/-- What a merge is refused over. -/
def conflict? (h source : Hierarchy) : Option Conflict :=
  (h.firstConflict? source.attributes.entries).or
    ((h.ownAttributes.clash? source.ownAttributes).map .ofHierarchy)

/-- The target with the annotations of both. -/
def annotated (h source : Hierarchy) : Hierarchy :=
  { h.annotateAll source.attributes.entries with
    ownAttributes := h.ownAttributes.fill source.ownAttributes }

theorem mergeAnnotations_eq : h.mergeAnnotations source =
    (h.conflict? source).elim (.ok (h.annotated source)) .error := by
  change (source.attributes.entries.foldlM (fun h e ↦ h.mergeAttributes e.1 e.2) h >>=
    fun annotated ↦ annotated.mergeOwnAttributes source) = _
  rw [foldlM_mergeAttributes (FinMap.pairwise_ne (.refl _)), conflict?]
  cases h.firstConflict? source.attributes.entries with
  | some conflict => rfl
  | none =>
    change (h.annotateAll source.attributes.entries).mergeOwnAttributes source = _
    rw [mergeOwnAttributes, ownAttributes_annotateAll, Attributes.union]
    cases h.ownAttributes.clash? source.ownAttributes <;> rfl

/-! ## Merges -/

@[simp] theorem ownAttributes_populated : (h.populated source).ownAttributes = h.ownAttributes :=
  foldl_frame _ fun _ _ ↦ ownAttributes_insertNode

theorem attributesOf_mergeStructure (hs : source.Mirrored) (hroot : h.hasType h.root) :
    (h.mergeStructure source).value.attributesOf t = h.attributesOf t := by
  rw [attributesOf, (rewired_mergeStructure hs hroot).attributes_eq, attributes_populated]
  rfl

theorem ownAttributes_mergeStructure (hs : source.Mirrored) (hroot : h.hasType h.root) :
    (h.mergeStructure source).value.ownAttributes = h.ownAttributes := by
  rw [(rewired_mergeStructure hs hroot).ownAttributes_eq, ownAttributes_populated]

/-- The annotations are those of the target until they are merged. -/
theorem conflict?_mergeStructure (hs : source.Mirrored) (hroot : h.hasType h.root) :
    (h.mergeStructure source).value.conflict? source = h.conflict? source := by
  simp only [conflict?, firstConflict?, typeConflict?, attributesOf_mergeStructure hs hroot,
    ownAttributes_mergeStructure hs hroot]

/-- What the merge is if it is not refused. -/
def united (h source : Hierarchy) : Hierarchy :=
  { (h.mergeStructure source).value.annotated source with
    generation := h.laterGeneration source }

/-- **A merge is refused over a conflict of the hierarchies as they are given.** -/
theorem value_serve_merge {spelling : Spelling} (hs : source.Mirrored) (hroot : h.hasType h.root) :
    (h.serve spelling (.merge source)).value =
      (h.conflict? source).elim (h.united source, .done) fun conflict ↦ (h, .refused conflict) := by
  rw [serve, Journaled.value_bind, value_merge, mergeAnnotations_eq,
    conflict?_mergeStructure hs hroot]
  cases h.conflict? source <;> rfl

/-! ## What a conflict tells -/

/-- Some type has different values under one key. -/
def TypesClash (h source : Hierarchy) : Prop :=
  ∃ t, ∃ clash : Attributes.Clash, clash.Between (h.attributesOf t) (source.attributesOf t)

/-- The hierarchies as a whole have different values under one key. -/
def WholesClash (h source : Hierarchy) : Prop :=
  ∃ clash : Attributes.Clash, clash.Between h.ownAttributes source.ownAttributes

/-- What it takes for a refusal to name a conflict: it is there, no lesser key of its subject will
do, and no type clashes if it is about the hierarchies as a whole. -/
def Names (h source : Hierarchy) : Conflict → Prop
  | .ofType name clash =>
    clash.LeastBetween (h.attributesOf (.named name)) (source.attributesOf (.named name))
  | .ofHierarchy clash =>
    clash.LeastBetween h.ownAttributes source.ownAttributes ∧ ¬ h.TypesClash source

theorem attributesOf_of_mem_entries (he : (t, attributes) ∈ source.attributes.entries) :
    source.attributesOf t = attributes := by
  rw [attributesOf, FinMap.getD, FinMap.mem_entries_iff.1 he]
  rfl

/-- A type with an annotation is among the entries. -/
theorem mem_entries_of_get? {key : String} {value : Attribute}
    (hvalue : (source.attributesOf t).get? key = some value) :
    (t, source.attributesOf t) ∈ source.attributes.entries := by
  rw [FinMap.mem_entries_iff, attributesOf, FinMap.getD]
  cases hget : source.attributes.get? t with
  | none => rw [attributesOf, FinMap.getD, hget] at hvalue; cases hvalue
  | some _ => rfl

theorem firstConflict?_eq_none_iff (hentries : entries.Perm source.attributes.entries) :
    h.firstConflict? entries = none ↔ ¬ h.TypesClash source := by
  rw [firstConflict?, List.findSome?_eq_none_iff]
  constructor
  · rintro hnone ⟨t, clash, hclash⟩
    have hentry := hnone _ (hentries.mem_iff.2 (mem_entries_of_get? hclash.right_eq))
    rw [typeConflict?, Option.map_eq_none_iff, Attributes.clash?_eq_none_iff] at hentry
    exact hentry clash hclash
  · rintro hnone ⟨t, attributes⟩ he
    rw [typeConflict?, Option.map_eq_none_iff, Attributes.clash?_eq_none_iff]
    intro clash hclash
    rw [← attributesOf_of_mem_entries (hentries.mem_iff.1 he)] at hclash
    exact hnone ⟨t, clash, hclash⟩

theorem names_of_firstConflict? (hs : source.WellFormed)
    (hentries : entries.Perm source.attributes.entries)
    (hconflict : h.firstConflict? entries = some conflict) : h.Names source conflict := by
  obtain ⟨⟨t, attributes⟩, he, hentry⟩ := List.exists_of_findSome?_eq_some hconflict
  rw [hentries.mem_iff] at he
  obtain ⟨clash, hclash, rfl⟩ := Option.map_eq_some_iff.1 hentry
  obtain ⟨name, rfl⟩ : ∃ name, t = .named name := by
    refine hs.named t (hs.annotated t ?_)
    rw [FinMap.contains, FinMap.mem_entries_iff.1 he]
    rfl
  rw [Attributes.clash?_eq_some_iff, ← attributesOf_of_mem_entries he] at hclash
  exact hclash

/-- **The order in which types are looked at makes no difference**, except to which of several types
is named. -/
theorem foldlM_mergeAttributes_of_perm (hs : source.WellFormed)
    (hentries : entries.Perm source.attributes.entries) :
    match entries.foldlM (fun h e ↦ h.mergeAttributes e.1 e.2) h with
    | .ok annotated => ¬ h.TypesClash source ∧
      ∀ t, annotated.attributesOf t = (h.attributesOf t).fill (source.attributesOf t)
    | .error conflict => h.TypesClash source ∧ h.Names source conflict := by
  rw [foldlM_mergeAttributes (FinMap.pairwise_ne hentries)]
  cases hfirst : h.firstConflict? entries with
  | none =>
    have hfine : ¬ h.TypesClash source := (firstConflict?_eq_none_iff hentries).1 hfirst
    exact ⟨hfine, fun t ↦ attributesOf_annotateAll hentries⟩
  | some conflict =>
    refine ⟨?_, names_of_firstConflict? hs hentries hfirst⟩
    by_contra hfine
    rw [(firstConflict?_eq_none_iff hentries).2 hfine] at hfirst
    cases hfirst

theorem conflict?_eq_none_iff :
    h.conflict? source = none ↔ ¬ (h.TypesClash source ∨ h.WholesClash source) := by
  rw [conflict?, Option.or_eq_none_iff, firstConflict?_eq_none_iff (.refl _),
    Option.map_eq_none_iff, Attributes.clash?_eq_none_iff, not_or, WholesClash, not_exists]

theorem names_of_conflict? (hs : source.WellFormed)
    (hconflict : h.conflict? source = some conflict) : h.Names source conflict := by
  rw [conflict?] at hconflict
  cases hfirst : h.firstConflict? source.attributes.entries with
  | some first =>
    rw [hfirst] at hconflict
    obtain rfl : first = conflict := Option.some.inj hconflict
    exact names_of_firstConflict? hs (.refl _) hfirst
  | none =>
    rw [hfirst, Option.none_or] at hconflict
    obtain ⟨clash, hclash, rfl⟩ := Option.map_eq_some_iff.1 hconflict
    exact ⟨Attributes.clash?_eq_some_iff.1 hclash, (firstConflict?_eq_none_iff (.refl _)).1 hfirst⟩

/-! ## What a merge comes to -/

theorem types_mergeStructure (hs : source.Mirrored) (hroot : h.hasType h.root) :
    (h.mergeStructure source).value.types = h.types.union source.types := by
  refine FinSet.ext fun t ↦ ?_
  rw [FinSet.mem_union, mem_types, mem_types, mem_types, hasType_mergeStructure hs hroot, or_comm]

/-- The parents of a type are those from both hierarchies, or the root if there is none. -/
theorem WellFormed.parentsOf_mergeStructure (hw : h.WellFormed) (hs : source.WellFormed)
    (ht : (h.mergeStructure source).value.hasType t) (hne : t ≠ h.root) :
    (h.mergeStructure source).value.parentsOf t =
      h.orRoot ((h.parentsOf t).union (source.parentsOf t)) := by
  have hmem : ∀ a, a ∈ (h.parentsOf t).union (source.parentsOf t) ↔
      h.Edge a t ∨ source.Edge a t := fun a ↦ by
    rw [FinSet.mem_union, hw.mirrored.mem_parentsOf_iff, hs.mirrored.mem_parentsOf_iff]
  refine FinSet.ext fun a ↦ ?_
  rw [(hw.mergeStructure hs).mirrored.mem_parentsOf_iff,
    edge_mergeStructure hw.mirrored hs.mirrored hw.hasType_root, orRoot]
  split
  · rename_i hempty
    have hnone : ∀ p, ¬ h.Edge p t ∧ ¬ source.Edge p t := fun p ↦
      not_or.1 fun he ↦ FinSet.isEmpty_iff.1 hempty p ((hmem p).2 he)
    have hsource : source.hasType t := by
      rcases (hasType_mergeStructure hs.mirrored hw.hasType_root).1 ht with ht | ht
      · exact ht
      · -- in the target it would have a parent
        obtain ⟨p, hp⟩ := hw.exists_edge ht hne
        exact absurd hp (hnone p).1
    rw [FinSet.mem_ofList, List.mem_singleton]
    refine ⟨?_, fun heq ↦ .inr ⟨hne, .inr ⟨heq, hsource, hnone⟩⟩⟩
    rintro (he | ⟨-, he | ⟨heq, -⟩⟩)
    · exact absurd he (hnone a).1
    · exact absurd he (hnone a).2
    · exact heq
  · rename_i hsome
    obtain ⟨p, hp⟩ := not_forall_not.1 (mt FinSet.isEmpty_iff.2 hsome)
    rw [hmem]
    refine ⟨?_, fun he ↦ he.imp_right fun he ↦ ⟨hne, .inl he⟩⟩
    rintro (he | ⟨-, he | ⟨-, -, hnone⟩⟩)
    · exact .inl he
    · exact .inr he
    · exact absurd ((hmem p).1 hp) (not_or.2 (hnone p))

theorem sameStructure_annotateAll : SameStructure h (h.annotateAll entries) :=
  ⟨foldl_frame _ fun _ _ ↦ rfl, foldl_frame _ fun _ _ ↦ rfl, foldl_frame _ fun _ _ ↦ rfl⟩

theorem sameStructure_united : SameStructure (h.mergeStructure source).value (h.united source) := by
  obtain ⟨hroot, hparents, hchildren⟩ : SameStructure (h.mergeStructure source).value
      ((h.mergeStructure source).value.annotateAll source.attributes.entries) :=
    sameStructure_annotateAll
  exact ⟨hroot, hparents, hchildren⟩

/-- `k` is the union of two hierarchies, over the root of the first. -/
structure Unites (h source k : Hierarchy) : Prop where
  root_eq : k.root = h.root
  types_eq : k.types = h.types.union source.types
  parentsOf_root : k.parentsOf h.root = ∅
  /-- The root is a parent in place of none. -/
  parentsOf_eq : ∀ t, k.hasType t → t ≠ h.root →
    k.parentsOf t = h.orRoot ((h.parentsOf t).union (source.parentsOf t))
  attributeOf?_iff : ∀ t key value, k.attributeOf? t key = some value ↔
    h.attributeOf? t key = some value ∨ source.attributeOf? t key = some value
  ownAttributes_iff : ∀ key value, k.ownAttributes.get? key = some value ↔
    h.ownAttributes.get? key = some value ∨ source.ownAttributes.get? key = some value
  generation_lt : max h.generation source.generation < k.generation

/-- Without a conflict the merge is the union. -/
theorem WellFormed.unites_united (hw : h.WellFormed) (hs : source.WellFormed)
    (hnone : h.conflict? source = none) : h.Unites source (h.united source) := by
  obtain ⟨hroot, hparents, -⟩ :
    SameStructure (h.mergeStructure source).value (h.united source) := sameStructure_united
  have hparentsOf : ∀ t, (h.united source).parentsOf t =
      (h.mergeStructure source).value.parentsOf t := fun t ↦ by rw [parentsOf, hparents, parentsOf]
  have hjoined := hw.mergeStructure hs
  have hroot' : (h.mergeStructure source).value.root = h.root :=
    (rewired_mergeStructure hs.mirrored hw.hasType_root).root_eq.trans root_populated
  obtain ⟨htypes, hwholes⟩ := not_or.1 (conflict?_eq_none_iff.1 hnone)
  constructor
  case root_eq => exact hroot.trans hroot'
  case types_eq =>
    rw [types, hparents]
    exact types_mergeStructure hs.mirrored hw.hasType_root
  case parentsOf_root =>
    refine FinSet.ext fun a ↦ ?_
    rw [hparentsOf, hjoined.mirrored.mem_parentsOf_iff, ← hroot']
    exact iff_of_false (hjoined.not_edge_root a) (FinSet.not_mem_empty a)
  case parentsOf_eq =>
    intro t ht hne
    rw [hparentsOf]
    refine hw.parentsOf_mergeStructure hs ?_ hne
    rwa [hasType, hparents] at ht
  case attributeOf?_iff =>
    intro t key value
    have hattributes : (h.united source).attributesOf t =
        (h.attributesOf t).fill (source.attributesOf t) := by
      rw [← attributesOf_mergeStructure hs.mirrored hw.hasType_root]
      exact attributesOf_annotateAll (.refl _)
    have hclash : (h.attributesOf t).clash? (source.attributesOf t) = none :=
      Attributes.clash?_eq_none_iff.2 fun clash hclash ↦ htypes ⟨t, clash, hclash⟩
    rw [← get?_attributesOf, hattributes, Attributes.get?_fill_eq_some_iff hclash,
      get?_attributesOf, get?_attributesOf]
  case ownAttributes_iff =>
    intro key value
    have hattributes : (h.united source).ownAttributes =
        h.ownAttributes.fill source.ownAttributes := by
      rw [← ownAttributes_mergeStructure hs.mirrored hw.hasType_root]
      rfl
    have hclash : h.ownAttributes.clash? source.ownAttributes = none :=
      Attributes.clash?_eq_none_iff.2 fun clash hclash ↦ hwholes ⟨clash, hclash⟩
    rw [hattributes, Attributes.get?_fill_eq_some_iff hclash]
  case generation_lt => exact Nat.lt_succ_self _

/-- **A merge is the union of two hierarchies, unless they give some type or themselves different
values under one key.** Then the hierarchy is left as it is, and the refusal names what is the
matter: a type if there is one that has such a key, and the least of its keys. -/
theorem Grown.merge_unites_or_names_conflict (hg : h.Grown) (hs : source.Grown)
    (spelling : Spelling) :
    let after := (h.serve spelling (.merge source)).value
    ((∃ conflict, after.2 = .refused conflict) ↔ h.TypesClash source ∨ h.WholesClash source) ∧
    (∀ conflict, after.2 = .refused conflict → after.1 = h ∧ h.Names source conflict) ∧
    ((¬ ∃ conflict, after.2 = .refused conflict) → after.2 = .done ∧ h.Unites source after.1) := by
  have hw : h.WellFormed := hg.wellFormed
  intro after
  rw [show after = _ from value_serve_merge hs.wellFormed.mirrored hw.hasType_root]
  cases hconflict : h.conflict? source with
  | none =>
    have hfine : ¬ (h.TypesClash source ∨ h.WholesClash source) := conflict?_eq_none_iff.1 hconflict
    refine ⟨iff_of_false ?_ hfine, ?_, ?_⟩
    · rintro ⟨_, ⟨⟩⟩
    · rintro _ ⟨⟩
    · exact fun _ ↦ ⟨rfl, hw.unites_united hs.wellFormed hconflict⟩
  | some conflict =>
    have hclash : h.TypesClash source ∨ h.WholesClash source := by
      by_contra hfine
      rw [conflict?_eq_none_iff.2 hfine] at hconflict
      cases hconflict
    refine ⟨iff_of_true ⟨conflict, rfl⟩ hclash, ?_, ?_⟩
    · rintro _ ⟨⟩
      exact ⟨rfl, names_of_conflict? hs.wellFormed hconflict⟩
    · exact fun hnot ↦ absurd ⟨conflict, rfl⟩ hnot

/-- A root and a type below it that has an annotation. -/
def stem : Hierarchy :=
  [.add "a" [], .setAttribute (.named "a") "legs" (.integer 2)].foldl
    (fun h r ↦ (h.serve {} r).value.1) (Hierarchy.new "r")

/-- A hierarchy with the root of `stem` below its own root. It gives the type below that, and itself
as a whole, an annotation. -/
def graft (legs : Int) : Hierarchy :=
  [.add "r" [], .add "a" ["r"], .setAttribute (.named "a") "legs" (.integer legs),
    .setOwnAttribute "strict" (.flag true)].foldl
    (fun h r ↦ (h.serve {} r).value.1) (Hierarchy.new "s")

theorem grown_stem : stem.Grown := by
  refine Grown.foldl_serve (.new "r") {} ?_
  simp [Request.sources]

theorem grown_graft (legs : Int) : (graft legs).Grown := by
  refine Grown.foldl_serve (.new "s") {} ?_
  simp [Request.sources]

/-- With equal annotations the roots change places; with others all stays. -/
theorem merge_unites_or_names_conflict_stem :
    stem.Grown ∧ (graft 2).Grown ∧ (graft 4).Grown ∧
      stem.Unites (graft 2) (stem.serve {} (.merge (graft 2))).value.1 ∧
      (stem.serve {} (.merge (graft 4))).value.1 = stem ∧
      stem.Names (graft 4) (.ofType "a" ⟨"legs", .integer 2, .integer 4⟩) := by
  have hdone : (stem.serve {} (.merge (graft 2))).value.2 = .done := by decide
  have hrefused : (stem.serve {} (.merge (graft 4))).value.2 =
      .refused (.ofType "a" ⟨"legs", .integer 2, .integer 4⟩) := by decide
  obtain ⟨-, -, hunites⟩ := grown_stem.merge_unites_or_names_conflict (grown_graft 2) {}
  obtain ⟨-, hsame, -⟩ := grown_stem.merge_unites_or_names_conflict (grown_graft 4) {}
  have hnot : ¬ ∃ conflict, (stem.serve {} (.merge (graft 2))).value.2 = .refused conflict := by
    rw [hdone]
    rintro ⟨_, ⟨⟩⟩
  exact ⟨grown_stem, grown_graft 2, grown_graft 4, (hunites hnot).2, hsame _ hrefused⟩

end Hierarchy

end Taxonomy
