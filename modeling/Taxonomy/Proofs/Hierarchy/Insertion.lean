import Taxonomy.Hierarchy.Edit
import Taxonomy.Proofs.Hierarchy.Closure
import Taxonomy.Proofs.Hierarchy.WellFormed

/-!
# Adding and moving keeps hierarchies well-formed

Parents that a request names become members first, below the root, which is putting in one leaf
after another. A type that is no member yet is then one more leaf, below these parents.

A member that is moved loses the edges into it, and so do the paths through it.
`WellFormed.setParents` asks for one new parent that is not below it: a path from the root to this
parent can do without the lost edges, hence still leads to the member and from there to whatever is
below it. `moveBelow` keeps the root as an extra parent exactly if there is no such parent among
those requested.
-/

open Relation

namespace Taxonomy.Hierarchy

variable {h : Hierarchy} {a b t u : Ty} {parents : FinSet Ty} {name : String}

/-! ## Parents become members -/

theorem hasType_ensureNode : (h.ensureNode t).hasType u ↔ u = t ∨ h.hasType u := by
  rw [ensureNode]
  split
  · rename_i ht
    exact ⟨.inr, fun hu ↦ hu.elim (· ▸ ht) id⟩
  · rw [hasType_link, hasType_insertNode, ← or_assoc, or_self]

theorem edge_ensureNode :
    (h.ensureNode t).Edge a b ↔ h.Edge a b ∨ a = h.root ∧ b = t ∧ ¬ h.hasType t := by
  rw [ensureNode]
  split
  · rename_i ht
    exact ⟨.inl, fun he ↦ he.elim id fun hnew ↦ absurd ht hnew.2.2⟩
  · rename_i ht
    rw [edge_link, edge_insertNode]
    simp [ht]

/-- What putting in a node and an edge keeps, putting in a child of the root keeps. -/
theorem ensureNode_frame {β : Type} {π : Hierarchy → β}
    (hinsert : ∀ k t, π (insertNode k t) = π k) (hlink : ∀ k a b, π (link k a b) = π k) :
    π (h.ensureNode t) = π h := by
  rw [ensureNode]
  split
  · rfl
  · exact (hlink _ _ _).trans (hinsert _ _)

@[simp] theorem root_ensureNode : (h.ensureNode t).root = h.root :=
  ensureNode_frame (fun _ _ ↦ root_insertNode) fun _ _ _ ↦ rfl

@[simp] theorem attributes_ensureNode : (h.ensureNode t).attributes = h.attributes :=
  ensureNode_frame (fun _ _ ↦ attributes_insertNode) fun _ _ _ ↦ rfl

@[simp] theorem ownAttributes_ensureNode : (h.ensureNode t).ownAttributes = h.ownAttributes :=
  ensureNode_frame (fun _ _ ↦ ownAttributes_insertNode) fun _ _ _ ↦ rfl

@[simp] theorem generation_ensureNode : (h.ensureNode t).generation = h.generation :=
  ensureNode_frame (fun _ _ ↦ generation_insertNode) fun _ _ _ ↦ rfl

theorem Mirrored.ensureNode (hm : h.Mirrored) (hroot : h.hasType h.root) (t : Ty) :
    (h.ensureNode t).Mirrored := by
  rw [Hierarchy.ensureNode]
  split
  · exact hm
  · exact (hm.insertNode t).link (hasType_insertNode.2 (.inr hroot))
      (hasType_insertNode.2 (.inl rfl))

theorem hasType_ensureNodes {types : FinSet Ty} :
    (h.ensureNodes types).hasType u ↔ u ∈ types ∨ h.hasType u := by
  rw [← FinSet.mem_toList, ensureNodes]
  generalize types.toList = l
  induction l generalizing h with
  | nil => simp
  | cons t rest ih =>
    rw [List.foldl_cons, ih, hasType_ensureNode, List.mem_cons]
    tauto

/-- Only what becomes a member gets an edge, from the root. -/
theorem edge_ensureNodes {types : FinSet Ty} :
    (h.ensureNodes types).Edge a b ↔
      h.Edge a b ∨ a = h.root ∧ b ∈ types ∧ ¬ h.hasType b := by
  rw [← FinSet.mem_toList, ensureNodes]
  generalize types.toList = l
  induction l generalizing h with
  | nil => simp
  | cons t rest ih =>
    rw [List.foldl_cons, ih, edge_ensureNode, root_ensureNode, hasType_ensureNode, List.mem_cons]
    by_cases hb : b = t
    · subst hb
      tauto
    · tauto

@[simp] theorem root_ensureNodes {types : FinSet Ty} : (h.ensureNodes types).root = h.root :=
  foldl_frame _ fun _ _ ↦ root_ensureNode

@[simp] theorem attributes_ensureNodes {types : FinSet Ty} :
    (h.ensureNodes types).attributes = h.attributes := foldl_frame _ fun _ _ ↦ attributes_ensureNode

@[simp] theorem ownAttributes_ensureNodes {types : FinSet Ty} :
    (h.ensureNodes types).ownAttributes = h.ownAttributes :=
  foldl_frame _ fun _ _ ↦ ownAttributes_ensureNode

@[simp] theorem generation_ensureNodes {types : FinSet Ty} :
    (h.ensureNodes types).generation = h.generation := foldl_frame _ fun _ _ ↦ generation_ensureNode

theorem mem_requestedParents {names : List String} :
    t ∈ requestedParents name names ↔ (∃ p ∈ names, .named p = t) ∧ t ≠ .named name := by
  rw [requestedParents, FinSet.mem_erase, FinSet.mem_ofList, List.mem_map]

theorem mem_orRoot : t ∈ h.orRoot parents ↔ t ∈ parents ∨ t = h.root ∧ ∀ p, p ∉ parents := by
  rw [orRoot, ← FinSet.isEmpty_iff]
  split
  · rename_i hempty
    rw [FinSet.mem_ofList, List.mem_singleton, and_iff_left hempty]
    exact (or_iff_right (FinSet.isEmpty_iff.1 hempty t)).symm
  · rename_i hsome
    exact (or_iff_left fun hroot ↦ hsome hroot.2).symm

/-- An edit settles on the root or on parents that were requested. -/
theorem eq_root_or_mem_of_mem_orRoot (ht : t ∈ h.orRoot parents) : t = h.root ∨ t ∈ parents :=
  (mem_orRoot.1 ht).elim .inr fun hroot ↦ .inl hroot.1

/-- The parents that an edit settles on are members if those requested are. -/
theorem hasType_of_mem_orRoot (hroot : h.hasType h.root) (hparents : ∀ p ∈ parents, h.hasType p)
    (ht : t ∈ h.orRoot parents) : h.hasType t := by
  rcases eq_root_or_mem_of_mem_orRoot ht with rfl | ht
  · exact hroot
  · exact hparents t ht

theorem exists_mem_orRoot : ∃ p, p ∈ h.orRoot parents := by
  by_cases hsome : ∃ p, p ∈ parents
  · obtain ⟨p, hp⟩ := hsome
    exact ⟨p, mem_orRoot.2 (.inl hp)⟩
  · exact ⟨h.root, mem_orRoot.2 (.inr ⟨rfl, not_exists.1 hsome⟩)⟩

/-- Only the inserted type and what becomes a member for it get edges from above. -/
theorem edge_insertBelow : (h.insertBelow t parents).Edge a b ↔
    h.Edge a b ∨ a = h.root ∧ b ∈ parents ∧ ¬ h.hasType b ∨ a ∈ h.orRoot parents ∧ b = t := by
  have hsettled : a ∈ (h.ensureNodes parents).orRoot parents ↔ a ∈ h.orRoot parents := by
    rw [mem_orRoot, mem_orRoot, root_ensureNodes]
  rw [insertBelow, edge_advance, edge_linkAll, edge_insertNode, edge_ensureNodes, hsettled,
    or_assoc]

namespace WellFormed

/-- A type becomes a member below the root. -/
theorem ensureNode (hw : h.WellFormed) (hnamed : ∃ name, t = .named name) :
    (h.ensureNode t).WellFormed := by
  by_cases ht : h.hasType t
  · rwa [Hierarchy.ensureNode, if_pos ht]
  · refine hw.of_leaf (· = h.root) ht hnamed (hw.mirrored.ensureNode hw.hasType_root t)
      root_ensureNode attributes_ensureNode (fun u ↦ hasType_ensureNode)
      (fun a b ↦ ?_) ?_ ⟨h.root, rfl⟩
    · rw [edge_ensureNode]
      simp [ht]
    · rintro a rfl
      exact hw.hasType_root

theorem ensureNodes {types : FinSet Ty} (hw : h.WellFormed)
    (hnamed : ∀ t ∈ types, ∃ name, t = .named name) : (h.ensureNodes types).WellFormed := by
  have hlist : ∀ t ∈ types.toList, ∃ name, t = .named name := fun t ht ↦
    hnamed t (FinSet.mem_toList.1 ht)
  rw [Hierarchy.ensureNodes]
  generalize types.toList = l at hlist
  induction l generalizing h with
  | nil => exact hw
  | cons t rest ih =>
    obtain ⟨ht, hrest⟩ := List.forall_mem_cons.1 hlist
    exact ih (hw.ensureNode ht) hrest

/-- A path that does not begin at the root does not come to an edge from it. -/
theorem edge_ensureNodes_of_path {types : FinSet Ty} (hw : h.WellFormed)
    (ha : a ≠ h.root) (hp : ReflTransGen h.Edge a b) :
    h.Edge b t ↔ (h.ensureNodes types).Edge b t := by
  rw [edge_ensureNodes]
  refine (or_iff_left ?_).symm
  rintro ⟨rfl, -⟩
  exact ha (hw.eq_root hp)

/-- New members are below the root only. -/
theorem reflTransGen_ensureNodes_iff {types : FinSet Ty} (hw : h.WellFormed) (ha : a ≠ h.root) :
    ReflTransGen (h.ensureNodes types).Edge a b ↔ ReflTransGen h.Edge a b :=
  (reflTransGen_iff_of_agree fun _ _ ↦ hw.edge_ensureNodes_of_path ha).symm

theorem transGen_ensureNodes_iff {types : FinSet Ty} (hw : h.WellFormed) (ha : a ≠ h.root) :
    TransGen (h.ensureNodes types).Edge a b ↔ TransGen h.Edge a b :=
  (transGen_iff_of_agree fun _ _ ↦ hw.edge_ensureNodes_of_path ha).symm

/-! ## A new type -/

/-- A named type goes below named parents. -/
theorem insertBelow (hw : h.WellFormed) (hfresh : ¬ h.hasType t) (hnamed : ∃ name, t = .named name)
    (hparents : ∀ p ∈ parents, ∃ name, p = .named name) (hself : t ∉ parents) :
    (h.insertBelow t parents).WellFormed := by
  let ready := h.ensureNodes parents
  have hready : ready.WellFormed := hw.ensureNodes hparents
  have hfresh' : ¬ ready.hasType t := by
    rw [hasType_ensureNodes]
    exact not_or.2 ⟨hself, hfresh⟩
  have hsettled : ∀ p ∈ ready.orRoot parents, ready.hasType p := fun p hp ↦
    hasType_of_mem_orRoot hready.hasType_root
      (fun q hq ↦ hasType_ensureNodes.2 (.inl hq)) hp
  have hrewired : Rewired (ready.insertNode t)
      ((ready.insertNode t).linkAll (ready.orRoot parents) t) :=
    (Rewired.refl _).linkAll (fun p hp ↦ hasType_insertNode.2 (.inr (hsettled p hp)))
      (hasType_insertNode.2 (.inl rfl))
  refine (hready.of_leaf (· ∈ ready.orRoot parents) hfresh' hnamed
    (hrewired.mirrored (hready.mirrored.insertNode t)) ?_ ?_ (fun u ↦ ?_) (fun a b ↦ ?_) hsettled
    exists_mem_orRoot).advance
  · rw [hrewired.root_eq, root_insertNode]
  · rw [hrewired.attributes_eq, attributes_insertNode]
  · rw [hrewired.hasType_eq, hasType_insertNode]
  · rw [edge_linkAll, edge_insertNode]

end WellFormed

/-! ## Other parents for a member -/

/-- Only the edges into the type whose parents are replaced change. -/
theorem edge_setParents (hm : h.Mirrored) :
    (h.setParents t parents).Edge a b ↔ h.Edge a b ∧ b ≠ t ∨ a ∈ parents ∧ b = t := by
  rw [setParents, edge_linkAll, edge_unlinkAll, hm.mem_parentsOf_iff]
  by_cases hb : b = t
  · subst hb
    tauto
  · tauto

theorem Rewired.setParents (hparents : ∀ p ∈ parents, h.hasType p) (ht : h.hasType t) :
    Rewired h (h.setParents t parents) :=
  (Rewired.refl h).unlinkAll.linkAll hparents ht

namespace WellFormed

/-- A member may be given other parents if one of them is not below it. -/
theorem setParents (hw : h.WellFormed) (ht : h.hasType t) (hroot : t ≠ h.root)
    (hparents : ∀ p ∈ parents, h.hasType p) (hself : t ∉ parents)
    (houtside : ∃ p ∈ parents, ¬ ReflTransGen h.Edge t p) :
    (h.setParents t parents).WellFormed := by
  have hkept : ∀ a b, h.Edge a b ∧ b ≠ t → (h.setParents t parents).Edge a b := fun a b he ↦
    (edge_setParents hw.mirrored).2 (.inl he)
  -- the parent that is not below `t` is reached without coming through `t`
  have hmember : ReflTransGen (h.setParents t parents).Edge h.root t := by
    obtain ⟨p, hp, hbelow⟩ := houtside
    have hlast : (h.setParents t parents).Edge p t :=
      (edge_setParents hw.mirrored).2 (.inr ⟨hp, rfl⟩)
    rcases reflTransGen_avoiding t (hw.reached p (hparents p hp)) with hpath | hpath
    · exact (ReflTransGen.mono hkept _ _ hpath).tail hlast
    · exact absurd (ReflTransGen.mono (fun _ _ he ↦ he.1) _ _ hpath) hbelow
  apply hw.of_rewired (.setParents hparents ht)
  · intro a ha
    rcases (edge_setParents hw.mirrored).1 ha with ⟨ha, -⟩ | ⟨-, heq⟩
    · exact hw.not_edge_root a ha
    · exact hroot heq.symm
  · intro u hu
    rcases (edge_setParents hw.mirrored).1 hu with ⟨hu, -⟩ | ⟨hmem, rfl⟩
    · exact hw.irrefl u hu
    · exact hself hmem
  · intro u hu
    -- the last visit to `t` decides whether the old path is used or the one that leads to `t` now
    rcases reflTransGen_avoiding t (hw.reached u hu) with hpath | hpath
    · exact ReflTransGen.mono hkept _ _ hpath
    · exact hmember.trans (ReflTransGen.mono hkept _ _ hpath)

/-- **A member is moved below named parents**, cut off from the root by none of them. -/
theorem moveBelow (hw : h.WellFormed) (ht : h.hasType t) (hroot : t ≠ h.root)
    (hparents : ∀ p ∈ parents, ∃ name, p = .named name) (hself : t ∉ parents) :
    (h.moveBelow t parents).value.WellFormed := by
  let ready := h.ensureNodes parents
  have hready : ready.WellFormed := hw.ensureNodes hparents
  have ht' : ready.hasType t := hasType_ensureNodes.2 (.inr ht)
  have hroot' : t ≠ ready.root := by rwa [root_ensureNodes]
  have hsettled : ∀ p ∈ ready.orRoot parents, ready.hasType p := fun p hp ↦
    hasType_of_mem_orRoot hready.hasType_root
      (fun q hq ↦ hasType_ensureNodes.2 (.inl hq)) hp
  have hself' : t ∉ ready.orRoot parents := fun hmem ↦
    (eq_root_or_mem_of_mem_orRoot hmem).elim hroot' hself
  rw [Hierarchy.moveBelow]
  split
  · -- all are below the member, the root is not
    refine (hready.setParents ht' hroot' ?_ ?_ ⟨ready.root, ?_, ?_⟩).advance
    · intro p hp
      rcases FinSet.mem_insert.1 hp with rfl | hp
      · exact hready.hasType_root
      · exact hsettled p hp
    · rw [FinSet.mem_insert]
      exact not_or.2 ⟨hroot', hself'⟩
    · exact FinSet.mem_insert.2 (.inl rfl)
    · intro hp
      exact hroot' (hready.eq_root hp)
  · rename_i hsome
    obtain ⟨p, hp, hout⟩ : ∃ p ∈ ready.orRoot parents, p ∉ (ready.descendants t).insert t := by
      simpa using hsome
    refine (hready.setParents ht' hroot' hsettled hself' ⟨p, hp, fun hpath ↦ hout ?_⟩).advance
    rw [FinSet.mem_insert, mem_descendants_iff hready.mirrored]
    exact reflTransGen_iff_eq_or_transGen.1 hpath

end WellFormed

/-! ## Requests that add or move -/

theorem reserved?_eq_none_iff {spelling : Spelling} {names : List String} :
    reserved? spelling names = none ↔ ∀ name ∈ names, spelling.reserves name = false := by
  simp only [reserved?, List.find?_eq_none, Bool.not_eq_true]

/-- A request that may be refused leaves the hierarchy alone, or it names nothing reserved and makes
its edit. -/
theorem value_unlessReserved (spelling : Spelling) (names : List String)
    (edit : Journaled Hierarchy) :
    (h.unlessReserved spelling names edit).value = h ∨
      (∀ name ∈ names, spelling.reserves name = false) ∧
        (h.unlessReserved spelling names edit).value = edit.value := by
  rw [unlessReserved]
  split
  · exact .inl rfl
  · rename_i hnone
    exact .inr ⟨reserved?_eq_none_iff.1 hnone, rfl⟩

/-- A request that names nothing reserved makes its edit. -/
theorem unlessReserved_eq {spelling : Spelling} {names : List String}
    (hopen : ∀ name ∈ names, spelling.reserves name = false) (edit : Journaled Hierarchy) :
    h.unlessReserved spelling names edit = edit := by
  rw [unlessReserved, reserved?_eq_none_iff.2 hopen]

theorem value_ensureTypes {spelling : Spelling} {names : List String} :
    (h.ensureTypes spelling names).value =
      if (h.ensureEach spelling names).value.size = h.size then (h.ensureEach spelling names).value
      else (h.ensureEach spelling names).value.advance := by
  rw [ensureTypes, Journaled.value_bind]
  split <;> rfl

theorem named_of_mem_requestedParents {names : List String}
    (ht : t ∈ requestedParents name names) : ∃ p, t = .named p := by
  obtain ⟨⟨p, -, rfl⟩, -⟩ := mem_requestedParents.1 ht
  exact ⟨p, rfl⟩

theorem not_mem_requestedParents {names : List String} :
    .named name ∉ requestedParents name names := fun hmem ↦ (mem_requestedParents.1 hmem).2 rfl

namespace WellFormed

variable {spelling : Spelling} {names : List String}

/-- What a request that may be refused makes of a well-formed hierarchy is well-formed if what it
makes when it is not refused is. -/
theorem unlessReserved {edit : Journaled Hierarchy} (hw : h.WellFormed)
    (hedit : edit.value.WellFormed) : (h.unlessReserved spelling names edit).value.WellFormed := by
  rcases value_unlessReserved spelling names edit with heq | ⟨-, heq⟩
  · rwa [heq]
  · rwa [heq]

theorem rebind (hw : h.WellFormed) (hmem : h.hasType (.named name)) :
    (h.rebind spelling name names).value.WellFormed := by
  refine hw.unlessReserved ?_
  dsimp only
  split
  · split
    · exact hw
    · exact hw
  · rename_i hroot
    exact hw.moveBelow hmem (Ne.symm hroot) (fun _ ↦ named_of_mem_requestedParents)
      not_mem_requestedParents

theorem add (hw : h.WellFormed) : (h.add spelling name names).value.WellFormed := by
  refine hw.unlessReserved ?_
  split
  · rename_i hmem
    exact hw.rebind hmem
  · rename_i hfresh
    exact hw.insertBelow hfresh ⟨name, rfl⟩ (fun _ ↦ named_of_mem_requestedParents)
      not_mem_requestedParents

theorem move (hw : h.WellFormed) : (h.move spelling name names).value.WellFormed := by
  rw [Hierarchy.move]
  split
  · rename_i hmem
    exact hw.rebind hmem
  · exact hw.add

/-- More parents only add paths. -/
theorem addParents (hw : h.WellFormed) : (h.addParents spelling name names).value.WellFormed := by
  rw [Hierarchy.addParents]
  split
  · rename_i hmem
    dsimp only
    split
    · exact hw
    refine hw.unlessReserved ?_
    split
    · exact hw
    · rename_i hroot
      let requested := requestedParents name names
      have hready : (h.ensureNodes requested).WellFormed :=
        hw.ensureNodes fun _ ↦ named_of_mem_requestedParents
      have hrewired : Rewired (h.ensureNodes requested)
          ((h.ensureNodes requested).linkAll requested (.named name)) :=
        (Rewired.refl _).linkAll (fun p hp ↦ hasType_ensureNodes.2 (.inl hp))
          (hasType_ensureNodes.2 (.inr hmem))
      apply WellFormed.advance
      apply hready.of_rewired hrewired
      · intro a ha
        rcases edge_linkAll.1 ha with ha | ⟨-, heq⟩
        · exact hready.not_edge_root a ha
        · rw [root_ensureNodes] at heq
          exact hroot heq
      · intro u hu
        rcases edge_linkAll.1 hu with hu | ⟨hself, rfl⟩
        · exact hready.irrefl u hu
        · exact not_mem_requestedParents hself
      · intro u hu
        exact ReflTransGen.mono (fun a b he ↦ edge_linkAll.2 (.inl he)) _ _ (hready.reached u hu)
  · exact hw.add

theorem ensureEach (hw : h.WellFormed) : (h.ensureEach spelling names).value.WellFormed := by
  induction names generalizing h with
  | nil => exact hw
  | cons name rest ih =>
    rw [Hierarchy.ensureEach]
    split
    · exact ih hw
    · exact ih (hw.ensureNode ⟨name, rfl⟩)

theorem ensureTypes (hw : h.WellFormed) : (h.ensureTypes spelling names).value.WellFormed := by
  rw [value_ensureTypes]
  split
  · exact hw.ensureEach
  · exact hw.ensureEach.advance

end WellFormed

end Taxonomy.Hierarchy
