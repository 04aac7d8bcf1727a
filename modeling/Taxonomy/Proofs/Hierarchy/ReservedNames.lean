import Taxonomy.Proofs.Hierarchy.Refusal

/-!
# Reserved names stay out

As long as the reserved values are spelled alike, a hierarchy whose root is not spelled like one of
them has no member that is (`GrownUnder.reserves_eq_false`), so every member is read back from its
text. A request brings in no names but those that have passed the test and those of a source
(`WellFormed.hasType_serve`).

The names that a request gives are not all tested. A type that is moved is not, nor is one that is
replaced, as it is a member if the request is to have any effect. So it takes the invariant to see
that every request about a single type that gives a reserved name is without effect
(`GrownUnder.serve_of_reserves`).
-/

namespace Taxonomy.Hierarchy

variable {h : Hierarchy} {t u : Ty} {name old new : String} {names : List String}
  {parents : FinSet Ty} {spelling : Spelling}

/-! ## Members after adding and moving -/

theorem hasType_linkAll (ht : h.hasType t) : (h.linkAll parents t).hasType u ↔ h.hasType u := by
  rw [linkAll]
  generalize parents.toList = l
  induction l generalizing h with
  | nil => rfl
  | cons p rest ih =>
    rw [List.foldl_cons, ih (hasType_link.2 (.inr ht)), hasType_link]
    exact or_iff_right_of_imp fun hu ↦ hu ▸ ht

theorem hasType_unlinkAll : (h.unlinkAll parents t).hasType u = h.hasType u :=
  foldl_frame (π := fun k ↦ k.hasType u) _ fun _ _ ↦ hasType_unlink

theorem hasType_insertBelow :
    (h.insertBelow t parents).hasType u ↔ u = t ∨ u ∈ parents ∨ h.hasType u := by
  rw [insertBelow, hasType_advance, hasType_linkAll (hasType_insertNode.2 (.inl rfl)),
    hasType_insertNode, hasType_ensureNodes]

theorem hasType_setParents (ht : h.hasType t) :
    (h.setParents t parents).hasType u ↔ h.hasType u := by
  rw [setParents, hasType_linkAll, hasType_unlinkAll]
  rwa [hasType_unlinkAll]

theorem hasType_moveBelow (ht : h.hasType t) :
    (h.moveBelow t parents).value.hasType u ↔ u ∈ parents ∨ h.hasType u := by
  have hset : ∀ ps, ((h.ensureNodes parents).setParents t ps).hasType u ↔
      u ∈ parents ∨ h.hasType u := by
    intro ps
    rw [hasType_setParents (hasType_ensureNodes.2 (.inr ht)), hasType_ensureNodes]
  rw [moveBelow]
  split
  · exact hset _
  · exact hset _

/-! ## Where members come from -/

/-- A member, or a type with a name that is not reserved. -/
def Permitted (spelling : Spelling) (h : Hierarchy) (t : Ty) : Prop :=
  h.hasType t ∨ ∃ name, t = .named name ∧ spelling.reserves name = false

theorem permitted_of_mem_requestedParents (hopen : ∀ p ∈ names, spelling.reserves p = false)
    (ht : t ∈ requestedParents name names) : Permitted spelling h t := by
  obtain ⟨⟨p, hp, rfl⟩, -⟩ := mem_requestedParents.1 ht
  exact .inr ⟨p, rfl, hopen p hp⟩

/-- What is tested before an edit may be counted on after it. -/
theorem permitted_unlessReserved {edit : Journaled Hierarchy}
    (hedit : (∀ name ∈ names, spelling.reserves name = false) → edit.value.hasType t →
      Permitted spelling h t)
    (ht : (h.unlessReserved spelling names edit).value.hasType t) : Permitted spelling h t := by
  rcases value_unlessReserved spelling names edit with heq | ⟨hopen, heq⟩
  · rw [heq] at ht
    exact .inl ht
  · rw [heq] at ht
    exact hedit hopen ht

theorem permitted_rebind (hmem : h.hasType (.named name))
    (ht : (h.rebind spelling name names).value.hasType t) : Permitted spelling h t := by
  refine permitted_unlessReserved (fun hopen ht ↦ ?_) ht
  dsimp only at ht
  split at ht
  · split at ht
    · exact .inl ht
    · exact .inl ht
  · rcases (hasType_moveBelow hmem).1 ht with ht | ht
    · exact permitted_of_mem_requestedParents hopen ht
    · exact .inl ht

theorem permitted_add (ht : (h.add spelling name names).value.hasType t) :
    Permitted spelling h t := by
  refine permitted_unlessReserved (fun hopen ht ↦ ?_) ht
  obtain ⟨hname, hparents⟩ := List.forall_mem_cons.1 hopen
  split at ht
  · rename_i hmem
    exact permitted_rebind hmem ht
  · rcases hasType_insertBelow.1 ht with rfl | ht | ht
    · exact .inr ⟨name, rfl, hname⟩
    · exact permitted_of_mem_requestedParents hparents ht
    · exact .inl ht

theorem permitted_move (ht : (h.move spelling name names).value.hasType t) :
    Permitted spelling h t := by
  rw [move] at ht
  split at ht
  · rename_i hmem
    exact permitted_rebind hmem ht
  · exact permitted_add ht

theorem permitted_addParents (ht : (h.addParents spelling name names).value.hasType t) :
    Permitted spelling h t := by
  rw [addParents] at ht
  split at ht
  · rename_i hmem
    dsimp only at ht
    split at ht
    · exact .inl ht
    · refine permitted_unlessReserved (fun hopen ht ↦ ?_) ht
      split at ht
      · exact .inl ht
      · rw [Journaled.value_pure, hasType_advance,
          hasType_linkAll (hasType_ensureNodes.2 (.inr hmem)), hasType_ensureNodes] at ht
        rcases ht with ht | ht
        · obtain ⟨⟨p, hp, rfl⟩, hne⟩ := mem_requestedParents.1 ht
          refine .inr ⟨p, rfl, hopen p (List.mem_filter.2 ⟨hp, decide_eq_true fun heq ↦ ?_⟩)⟩
          exact hne (congrArg Ty.named heq)
        · exact .inl ht
  · exact permitted_add ht

theorem hasType_ensureTypes : (h.ensureTypes spelling names).value.hasType t ↔
    h.hasType t ∨ ∃ name ∈ names, t = .named name ∧ spelling.reserves name = false := by
  rw [← hasType_ensureEach, value_ensureTypes]
  split
  · rfl
  · rfl

/-- Reserved names are skipped as if they had not been given. -/
theorem value_ensureTypes_filter : (h.ensureTypes spelling names).value =
    (h.ensureTypes spelling (names.filter fun name ↦ !spelling.reserves name)).value := by
  have heach : (h.ensureEach spelling names).value =
      (h.ensureEach spelling (names.filter fun name ↦ !spelling.reserves name)).value := by
    induction names generalizing h with
    | nil => rfl
    | cons name rest ih =>
      rw [ensureEach]
      split
      · rename_i hreserved
        rw [List.filter_cons_of_neg (by simp [hreserved])]
        exact ih
      · rename_i hopen
        rw [List.filter_cons_of_pos (by simp [hopen]), ensureEach, if_neg hopen]
        exact ih
  rw [value_ensureTypes, value_ensureTypes, heach]

namespace WellFormed

theorem permitted_replace (hw : h.WellFormed)
    (ht : (h.replace spelling old new).value.hasType t) : Permitted spelling h t := by
  rw [Hierarchy.replace] at ht
  split at ht
  · exact .inl ht
  · rename_i hne
    split at ht
    · rename_i hold
      refine permitted_unlessReserved (fun hopen ht ↦ ?_) ht
      obtain ⟨u, hu, rfl⟩ := (hw.hasType_replaceNode hold fun heq ↦
        hne (Ty.named.inj heq).symm).1 ht
      by_cases huold : u = .named old
      · rw [huold, renamed_self]
        exact .inr ⟨new, rfl, hopen new (List.mem_singleton.2 rfl)⟩
      · rw [renamed_of_ne huold]
        exact .inl hu
    · exact .inl ht

/-- **A request brings in no names but those of a source and those that are not reserved.** -/
theorem hasType_serve (hw : h.WellFormed) {r : Request Hierarchy}
    (hsources : ∀ k ∈ r.sources, k.WellFormed) (ht : (h.serve spelling r).value.1.hasType t) :
    Permitted spelling h t ∨ ∃ k ∈ r.sources, k.hasType t := by
  by_cases hannotates : r.annotates
  · have hsame := (sameStructure_of_annotates h spelling hannotates).1
    rw [hasType, hsame.parents_eq] at ht
    exact .inl (.inl ht)
  cases r with
  | add name parents => exact .inl (permitted_add ht)
  | move name parents => exact .inl (permitted_move ht)
  | addParents name parents => exact .inl (permitted_addParents ht)
  | remove names => exact .inl (.inl (hw.hasType_remove.1 ht).1)
  | replace old new => exact .inl (hw.permitted_replace ht)
  | ensureTypes names =>
    rcases hasType_ensureTypes.1 ht with ht | ⟨name, -, heq, hopen⟩
    · exact .inl (.inl ht)
    · exact .inl (.inr ⟨name, heq, hopen⟩)
  | clear =>
    refine .inl (.inl ?_)
    change (insertNode _ h.root).hasType t at ht
    rcases hasType_insertNode.1 ht with rfl | ht
    · exact hw.hasType_root
    · simp [hasType, FinMap.contains] at ht
  | assign source => exact .inr ⟨source, List.mem_cons_self, ht⟩
  | merge source =>
    rw [Hierarchy.serve, Journaled.value_bind] at ht
    split at ht
    · rename_i merged hok
      obtain ⟨annotated, hannotated, rfl⟩ := exists_of_merge_eq_ok hok
      have hsame := (sameStructure_mergeAnnotations hannotated).1
      change annotated.parents.contains t at ht
      rw [hsame.parents_eq] at ht
      have hs := hsources source List.mem_cons_self
      rcases (hasType_mergeStructure hs.mirrored hw.hasType_root).1 ht with ht | ht
      · exact .inr ⟨source, List.mem_cons_self, ht⟩
      · exact .inl (.inl ht)
    · exact .inl (.inl ht)
  | _ => exact absurd rfl hannotates

end WellFormed

/-! ## Hierarchies without reserved names -/

/-- A hierarchy that has come by requests from a root that is not reserved, the reserved values
being spelled alike all the time. The hierarchies that requests take over have come about
likewise. -/
inductive GrownUnder (spelling : Spelling) : Hierarchy → Prop
  | new {root : String} (hroot : spelling.reserves root = false) : GrownUnder spelling (.new root)
  | serve {h : Hierarchy} {r : Request Hierarchy} (hh : GrownUnder spelling h)
      (hsources : ∀ k ∈ r.sources, GrownUnder spelling k) :
      GrownUnder spelling (h.serve spelling r).value.1

/-- A request that names something reserved is refused if it is tested for it. -/
theorem value_unlessReserved_of_mem {edit : Journaled Hierarchy} (hname : name ∈ names)
    (hreserved : spelling.reserves name) : (h.unlessReserved spelling names edit).value = h := by
  rcases value_unlessReserved spelling names edit with heq | ⟨hopen, -⟩
  · exact heq
  · exact absurd hreserved (Bool.eq_false_iff.1 (hopen name hname))

namespace GrownUnder

theorem grown (hg : GrownUnder spelling h) : h.Grown := by
  induction hg with
  | new _ => exact .new _
  | serve _ _ ih ihsources => exact ih.serve spelling ihsources

/-- **No member has a reserved name.** -/
theorem reserves_eq_false (hg : GrownUnder spelling h) (hmem : h.hasType (.named name)) :
    spelling.reserves name = false := by
  induction hg with
  | @new root hroot =>
    rcases hasType_insertNode.1 hmem with heq | hmem
    · exact Ty.named.inj heq ▸ hroot
    · simp [hasType, FinMap.contains] at hmem
  | serve hh hsources ih ihsources =>
    rcases hh.grown.wellFormed.hasType_serve (fun k hk ↦ (hsources k hk).grown.wellFormed) hmem
      with (hmem | ⟨n, heq, hopen⟩) | ⟨k, hk, hmem⟩
    · exact ih hmem
    · exact Ty.named.inj heq ▸ hopen
    · exact ihsources k hk hmem

theorem ne_of_reserves (hg : GrownUnder spelling h) (hmem : h.hasType (.named old))
    (hreserved : spelling.reserves name) : name ≠ old := by
  rintro rfl
  rw [hg.reserves_eq_false hmem] at hreserved
  cases hreserved

/-- A member reads back from its text. -/
theorem parse_render (hg : GrownUnder spelling h) (ht : h.hasType t) :
    spelling.parse (spelling.render t) = t := by
  obtain ⟨name, rfl⟩ := hg.grown.wellFormed.named t ht
  exact Spelling.parse_render_named (hg.reserves_eq_false ht)

/-! ## Requests that name something reserved -/

variable (hg : GrownUnder spelling h) (hreserved : spelling.reserves name)

include hreserved in
theorem add_of_reserves {n : String} (hname : name ∈ n :: names) :
    (h.add spelling n names).value = h := value_unlessReserved_of_mem hname hreserved

include hg hreserved

theorem move_of_reserves {n : String} (hname : name ∈ n :: names) :
    (h.move spelling n names).value = h := by
  rw [move]
  split
  · rename_i hmem
    have hparent := List.mem_of_ne_of_mem (hg.ne_of_reserves hmem hreserved) hname
    exact value_unlessReserved_of_mem hparent hreserved
  · exact add_of_reserves hreserved hname

theorem addParents_of_reserves {n : String} (hname : name ∈ n :: names) :
    (h.addParents spelling n names).value = h := by
  rw [addParents]
  split
  · rename_i hmem
    dsimp only
    split
    · rfl
    · have hne := hg.ne_of_reserves hmem hreserved
      have hparent := List.mem_of_ne_of_mem hne hname
      exact value_unlessReserved_of_mem (List.mem_filter.2 ⟨hparent, decide_eq_true hne⟩) hreserved
  · exact add_of_reserves hreserved hname

theorem replace_of_reserves (hname : name ∈ [old, new]) :
    (h.replace spelling old new).value = h := by
  rw [Hierarchy.replace]
  split
  · rfl
  · split
    · rename_i hold
      have hnew := List.mem_of_ne_of_mem (hg.ne_of_reserves hold hreserved) hname
      exact value_unlessReserved_of_mem hnew hreserved
    · rfl

/-- **A request about a single type that names something reserved changes nothing.** -/
theorem serve_of_reserves {r : Request Hierarchy} (hname : name ∈ r.names) :
    (h.serve spelling r).value.1 = h := by
  cases r with
  | add n parents => exact add_of_reserves hreserved hname
  | move n parents => exact hg.move_of_reserves hreserved hname
  | addParents n parents => exact hg.addParents_of_reserves hreserved hname
  | replace old new => exact hg.replace_of_reserves hreserved hname
  | _ => cases hname

omit hreserved

/-- **Reserved names stay out.** No member is spelled like a reserved value, so each is read back
from its text. A request to add, to move, to give parents or to replace that gives a reserved name,
for the type, for a parent or for the new name, leaves the hierarchy exactly as it is; ensuring
types skips the reserved names and no others. -/
theorem keeps_reserved_names_out :
    (∀ name, h.hasType (.named name) → name ≠ spelling.top ∧ name ≠ spelling.undefined) ∧
    (∀ t, h.hasType t → spelling.parse (spelling.render t) = t) ∧
    (∀ r : Request Hierarchy, (∃ name ∈ r.names, spelling.reserves name) →
      (h.serve spelling r).value.1 = h) ∧
    ∀ names, (h.ensureTypes spelling names).value =
        (h.ensureTypes spelling (names.filter fun name ↦ !spelling.reserves name)).value ∧
      ∀ t, (h.ensureTypes spelling names).value.hasType t ↔
        h.hasType t ∨ ∃ name ∈ names, t = .named name ∧ spelling.reserves name = false := by
  refine ⟨fun name hmem ↦ ?_, fun t ht ↦ hg.parse_render ht, ?_, fun names ↦ ?_⟩
  · have hopen := hg.reserves_eq_false hmem
    rwa [Spelling.reserves, Bool.or_eq_false_iff, decide_eq_false_iff_not,
      decide_eq_false_iff_not] at hopen
  · rintro r ⟨name, hname, hreserved⟩
    exact hg.serve_of_reserves hreserved hname
  · exact ⟨value_ensureTypes_filter, fun t ↦ hasType_ensureTypes⟩

end GrownUnder

theorem grownUnder_knot : knot.GrownUnder {} := by
  have hserve : ∀ {h : Hierarchy} (r : Request Hierarchy), r.sources = [] → h.GrownUnder {} →
      (h.serve {} r).value.1.GrownUnder {} := by
    intro h r hnone hh
    refine .serve hh ?_
    rw [hnone]
    exact List.forall_mem_nil _
  have hroot : (Hierarchy.new "r").GrownUnder {} := .new (by decide)
  exact hserve (.add "c" ["b"]) rfl (hserve (.addParents "a" ["b"]) rfl
    (hserve (.add "b" ["a"]) rfl (hserve (.add "a" []) rfl hroot)))

/-- A cycle taken over from another hierarchy: its types read back, a type on it is not moved below
a reserved name, and of two names to be ensured the reserved one is skipped. -/
theorem keeps_reserved_names_out_knot :
    ((Hierarchy.new "s").serve {} (.merge knot)).value.1.GrownUnder {} ∧
    (∀ t, ((Hierarchy.new "s").serve {} (.merge knot)).value.1.hasType t →
      Spelling.parse {} (Spelling.render {} t) = t) ∧
    (((Hierarchy.new "s").serve {} (.merge knot)).value.1.serve {}
      (.move "b" ["d", "UNDEFINED"])).value.1 =
        ((Hierarchy.new "s").serve {} (.merge knot)).value.1 ∧
    (((Hierarchy.new "s").serve {} (.merge knot)).value.1.ensureTypes {}
      ["TOP", "d"]).value.hasType (.named "d") := by
  have hg : ((Hierarchy.new "s").serve {} (.merge knot)).value.1.GrownUnder {} := by
    refine .serve (.new (by decide)) fun k hk ↦ ?_
    rw [List.mem_singleton.1 hk]
    exact grownUnder_knot
  obtain ⟨-, hparse, hrefused, hensured⟩ := hg.keeps_reserved_names_out
  refine ⟨hg, hparse, hrefused _ ⟨"UNDEFINED", by decide, by decide⟩, ?_⟩
  exact ((hensured ["TOP", "d"]).2 _).2 (.inr ⟨"d", by decide, rfl, by decide⟩)

end Taxonomy.Hierarchy
