import Taxonomy.Proofs.Hierarchy.Generation

/-!
# Requests that change nothing

A request is refused if it would bring a reserved name in, or if it asks for parents of the root.
Whatever is asked for besides, nothing of it is done: the members that a request would create, the
edges it would cut and the generation are what they were. That is so because each edit looks for
reasons to refuse before it makes its first change, though not all at the same point. Refusals for a
reserved name are told by their notice (`Refusing`), so that no edit has to be asked where it looks.

Together with the requests that annotate and the merges that are in conflict, these are the requests
that leave the structure alone. All others may change it, and then the generation tells
(`Grown.generation_tells_change`).
-/

namespace Taxonomy

namespace Request

variable {σ : Type}

/-- Whether a request is about annotations only. -/
def annotates : Request σ → Bool
  | setAttribute .. | removeAttribute .. | setOwnAttribute .. | removeOwnAttribute .. => true
  | _ => false

/-- The name of the type that a request gives parents. -/
def child? : Request σ → Option String
  | add name _ | move name _ | addParents name _ => some name
  | _ => none

/-- The names that a request about a single type gives: that of the type, and those of its parents
or its new one. -/
def names : Request σ → List String
  | add name parents | move name parents | addParents name parents => name :: parents
  | replace old new => [old, new]
  | _ => []

end Request

namespace Hierarchy

variable {h : Hierarchy} {name old new : String} {names : List String} {spelling : Spelling}

/-! ## Parents for the root -/

/-- An edit that does nothing does nothing if it is refused either. -/
theorem unlessReserved_eq_self {edit : Journaled Hierarchy} (hedit : edit.value = h) :
    (h.unlessReserved spelling names edit).value = h := by
  rcases value_unlessReserved spelling names edit with heq | ⟨-, heq⟩
  · exact heq
  · exact heq.trans hedit

theorem rebind_root (hroot : h.root = .named name) : (h.rebind spelling name names).value = h := by
  refine unlessReserved_eq_self ?_
  dsimp only
  rw [if_pos hroot]
  split
  · rfl
  · rfl

theorem add_root (hmem : h.hasType (.named name)) (hroot : h.root = .named name) :
    (h.add spelling name names).value = h := by
  refine unlessReserved_eq_self ?_
  rw [if_pos hmem]
  exact rebind_root hroot

theorem move_root (hmem : h.hasType (.named name)) (hroot : h.root = .named name) :
    (h.move spelling name names).value = h := by
  rw [move, if_pos hmem]
  exact rebind_root hroot

theorem addParents_root (hmem : h.hasType (.named name)) (hroot : h.root = .named name) :
    (h.addParents spelling name names).value = h := by
  rw [addParents, if_pos hmem]
  dsimp only
  split
  · rfl
  · exact unlessReserved_eq_self rfl

/-- No request gives the root parents. -/
theorem WellFormed.serve_root (hw : h.WellFormed) (spelling : Spelling) {r : Request Hierarchy}
    (hchild : r.child? = some name) (hroot : h.root = .named name) :
    (h.serve spelling r).value.1 = h := by
  have hmem : h.hasType (.named name) := hroot ▸ hw.hasType_root
  cases r with
  | add n parents =>
    obtain rfl : n = name := Option.some.inj hchild
    exact add_root hmem hroot
  | move n parents =>
    obtain rfl : n = name := Option.some.inj hchild
    exact move_root hmem hroot
  | addParents n parents =>
    obtain rfl : n = name := Option.some.inj hchild
    exact addParents_root hmem hroot
  | _ => cases hchild

/-! ## Refusals by their notice -/

/-- If an edit refuses a reserved name, it leaves the hierarchy as it is. -/
def Refusing (h : Hierarchy) (edit : Journaled Hierarchy) : Prop :=
  ∀ name, .reservedName name ∈ edit.notices → edit.value = h

/-- What refuses no name is not concerned. -/
theorem refusing_of_notices {edit : Journaled Hierarchy}
    (hnone : ∀ name, .reservedName name ∉ edit.notices) : Refusing h edit :=
  fun name hname ↦ absurd hname (hnone name)

theorem refusing_self {edit : Journaled Hierarchy} (hedit : edit.value = h) : Refusing h edit :=
  fun _ _ ↦ hedit

/-- The test comes before the edit. -/
theorem Refusing.unlessReserved {edit : Journaled Hierarchy} (hedit : Refusing h edit) :
    Refusing h (h.unlessReserved spelling names edit) := by
  rw [Hierarchy.unlessReserved]
  split
  · exact refusing_self rfl
  · exact hedit

theorem refusing_moveBelow {t : Ty} {parents : FinSet Ty} : Refusing h (h.moveBelow t parents) := by
  refine refusing_of_notices fun name ↦ ?_
  rw [moveBelow]
  split
  · simp
  · simp

theorem refusing_rebind : Refusing h (h.rebind spelling name names) := by
  refine .unlessReserved ?_
  dsimp only
  split
  · refine refusing_self ?_
    split
    · rfl
    · rfl
  · exact refusing_moveBelow

theorem refusing_add : Refusing h (h.add spelling name names) := by
  refine .unlessReserved ?_
  split
  · exact refusing_rebind
  · exact refusing_of_notices fun _ ↦ by simp

theorem refusing_move : Refusing h (h.move spelling name names) := by
  rw [move]
  split
  · exact refusing_rebind
  · exact refusing_add

theorem refusing_addParents : Refusing h (h.addParents spelling name names) := by
  rw [addParents]
  split
  · dsimp only
    split
    · exact refusing_self rfl
    · refine .unlessReserved ?_
      split
      · exact refusing_self rfl
      · exact refusing_of_notices fun _ ↦ by simp
  · exact refusing_add

theorem refusing_replace : Refusing h (h.replace spelling old new) := by
  rw [replace]
  split
  · exact refusing_self rfl
  · split
    · exact .unlessReserved (refusing_of_notices fun _ ↦ by simp)
    · exact refusing_self rfl

/-- **A request about a single type that refuses a reserved name changes nothing.** -/
theorem serve_of_reservedName (h : Hierarchy) (spelling : Spelling) {r : Request Hierarchy}
    (hr : r.names ≠ []) (hname : .reservedName name ∈ (h.serve spelling r).notices) :
    (h.serve spelling r).value.1 = h := by
  cases r with
  | add n parents => exact refusing_add name (by simpa [serve] using hname)
  | move n parents => exact refusing_move name (by simpa [serve] using hname)
  | addParents n parents => exact refusing_addParents name (by simpa [serve] using hname)
  | replace old new => exact refusing_replace name (by simpa [serve] using hname)
  | _ => exact absurd rfl hr

/-! ## Annotations -/

/-- Annotations are no part of the structure. -/
theorem sameStructure_of_annotates (h : Hierarchy) (spelling : Spelling) {r : Request Hierarchy}
    (hr : r.annotates) : SameStructure h (h.serve spelling r).value.1 ∧
      (h.serve spelling r).value.1.generation = h.generation := by
  cases r with
  | setAttribute t key value =>
    change SameStructure h (h.setAttribute t key value).value ∧
      (h.setAttribute t key value).value.generation = h.generation
    rw [setAttribute]
    split
    · exact ⟨⟨rfl, rfl, rfl⟩, rfl⟩
    · exact ⟨.refl h, rfl⟩
  | removeAttribute t key => exact ⟨⟨rfl, rfl, rfl⟩, rfl⟩
  | setOwnAttribute key value => exact ⟨⟨rfl, rfl, rfl⟩, rfl⟩
  | removeOwnAttribute key => exact ⟨⟨rfl, rfl, rfl⟩, rfl⟩
  | _ => cases hr

/-- Only a merge comes to a conflict, and then it is not made. -/
theorem serve_of_refused (h : Hierarchy) (spelling : Spelling) {r : Request Hierarchy}
    {conflict : Conflict} (hr : (h.serve spelling r).value.2 = .refused conflict) :
    (h.serve spelling r).value.1 = h := by
  cases r with
  | merge source =>
    rw [serve, Journaled.value_bind] at hr ⊢
    split at hr
    · cases hr
    · rfl
  | _ => cases hr

/-! ## The generation -/

/-- **The generation tells whether the structure has changed.** It never goes back, and if the root
or one of the two maps is another after a request, the generation is greater. Requests that annotate
leave both alone; requests that are refused, be it for a conflict, for the root or for a reserved
name, leave everything alone. -/
theorem Grown.generation_tells_change (hg : h.Grown) (spelling : Spelling) {r : Request Hierarchy}
    {k : Hierarchy} {outcome : Outcome} (hserve : (h.serve spelling r).value = (k, outcome)) :
    h.generation ≤ k.generation ∧
    (k.root ≠ h.root ∨ k.parents ≠ h.parents ∨ k.children ≠ h.children →
      h.generation < k.generation) ∧
    (r.annotates → SameStructure h k ∧ k.generation = h.generation) ∧
    (∀ conflict, outcome = .refused conflict → k = h) ∧
    (∀ name, r.child? = some name → h.root = .named name → k = h) ∧
    ∀ name ∈ r.names, .reservedName name ∈ (h.serve spelling r).notices → k = h := by
  have hw : h.WellFormed := hg.wellFormed
  have hcounted : Counted h k := by
    have hserved := hw.counted_serve spelling r
    rwa [hserve] at hserved
  have hvalue : (h.serve spelling r).value.1 = k := congrArg Prod.fst hserve
  refine ⟨hcounted.generation_le, fun hchanged ↦ ?_, fun hr ↦ ?_, ?_, ?_, ?_⟩
  · refine Nat.lt_of_le_of_ne hcounted.generation_le fun heq ↦ ?_
    obtain ⟨hroot, hparents, hchildren⟩ := hcounted.sameStructure heq.symm
    rcases hchanged with hne | hne | hne
    · exact hne hroot
    · exact hne hparents
    · exact hne hchildren
  · have hsame := sameStructure_of_annotates h spelling hr
    rwa [hvalue] at hsame
  · rintro conflict rfl
    exact hvalue ▸ serve_of_refused h spelling (congrArg Prod.snd hserve)
  · intro name hchild hroot
    exact hvalue ▸ hw.serve_root spelling hchild hroot
  · intro name hname hnotice
    exact hvalue ▸ serve_of_reservedName h spelling (List.ne_nil_of_mem hname) hnotice

/-- An edit of a cycle shows in the generation; an annotation and requests that are refused do not,
though two of them name types that are no members. -/
theorem generation_tells_change_knot :
    knot.Grown ∧
    knot.generation < (knot.serve {} (.remove ["a"])).value.1.generation ∧
    (knot.serve {} (.setAttribute (.named "c") "k" (.integer 1))).value.1.generation =
      knot.generation ∧
    (knot.serve {} (.addParents "r" ["x"])).value.1 = knot ∧
    (knot.serve {} (.move "x" ["y", "TOP"])).value.1 = knot := by
  have hremoved := grown_knot.generation_tells_change {} (r := .remove ["a"]) rfl
  have hannotated := grown_knot.generation_tells_change {}
    (r := .setAttribute (.named "c") "k" (.integer 1)) rfl
  have hrooted := grown_knot.generation_tells_change {} (r := .addParents "r" ["x"]) rfl
  have hrefused := grown_knot.generation_tells_change {} (r := .move "x" ["y", "TOP"]) rfl
  refine ⟨grown_knot, hremoved.2.1 (.inr (.inl (by decide +kernel))), (hannotated.2.2.1 rfl).2,
    hrooted.2.2.2.2.1 "r" rfl (by decide), ?_⟩
  exact hrefused.2.2.2.2.2 "TOP" (by decide) (by decide +kernel)

end Hierarchy

end Taxonomy
