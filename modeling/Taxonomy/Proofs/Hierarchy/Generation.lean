import Taxonomy.Proofs.Hierarchy.Grown

/-!
# Generations

State derived from a hierarchy is trusted as long as the generation is the one it was made in. That
is sound because requests are `Counted`: the generation never goes back, and as long as it stays the
structure stays (`WellFormed.counted_serve`). Counted changes compose, so the same holds of any
history.

Most edits advance the generation whatever they do. Removal and `ensureTypes` look at the number of
members instead. That is as good, because the former only takes members away and the latter only
adds some, so that the number is the same only if nothing has happened.
-/

namespace Taxonomy.Hierarchy

variable {h k l : Hierarchy} {name : String} {names : List String} {spelling : Spelling}

/-- The change from `h` to `k` shows in the generation if it changes the structure. -/
structure Counted (h k : Hierarchy) : Prop where
  generation_le : h.generation ≤ k.generation
  sameStructure : k.generation = h.generation → SameStructure h k

namespace Counted

@[refl] theorem refl (h : Hierarchy) : Counted h h := ⟨Nat.le_refl _, fun _ ↦ .refl h⟩

theorem trans (hk : Counted h k) (hl : Counted k l) : Counted h l where
  generation_le := Nat.le_trans hk.generation_le hl.generation_le
  sameStructure heq := by
    have hkl : k.generation ≤ l.generation := hl.generation_le
    have hhk : h.generation ≤ k.generation := hk.generation_le
    exact (hk.sameStructure (by omega)).trans (hl.sameStructure (by omega))

theorem of_lt (hlt : h.generation < k.generation) : Counted h k :=
  ⟨Nat.le_of_lt hlt, fun heq ↦ absurd heq (Nat.ne_of_gt hlt)⟩

/-- A change that is counted at its end may do anything. -/
theorem of_advance (heq : k.generation = h.generation) : Counted h k.advance :=
  of_lt (Nat.lt_succ_of_le (Nat.le_of_eq heq.symm))

theorem unlessReserved {edit : Journaled Hierarchy} (hedit : Counted h edit.value) :
    Counted h (h.unlessReserved spelling names edit).value := by
  rcases value_unlessReserved spelling names edit with heq | ⟨-, heq⟩
  · rw [heq]
  · rwa [heq]

end Counted

/-! ## Adding and moving -/

theorem counted_moveBelow {t : Ty} {parents : FinSet Ty} :
    Counted h (h.moveBelow t parents).value := by
  have hset : ∀ ps, ((h.ensureNodes parents).setParents t ps).generation = h.generation := by
    intro ps
    rw [setParents, generation_linkAll, generation_unlinkAll, generation_ensureNodes]
  rw [moveBelow]
  split
  · exact .of_advance (hset _)
  · exact .of_advance (hset _)

theorem counted_rebind : Counted h (h.rebind spelling name names).value := by
  refine .unlessReserved ?_
  dsimp only
  split
  · split
    · rfl
    · exact .refl h
  · exact counted_moveBelow

theorem counted_add : Counted h (h.add spelling name names).value := by
  refine .unlessReserved ?_
  split
  · exact counted_rebind
  · refine .of_advance ?_
    rw [generation_linkAll, generation_insertNode, generation_ensureNodes]

theorem counted_move : Counted h (h.move spelling name names).value := by
  rw [move]
  split
  · exact counted_rebind
  · exact counted_add

theorem counted_addParents : Counted h (h.addParents spelling name names).value := by
  rw [addParents]
  split
  · dsimp only
    split
    · rfl
    · refine .unlessReserved ?_
      split
      · exact .refl h
      · refine .of_advance ?_
        rw [generation_linkAll, generation_ensureNodes]
  · exact counted_add

/-! ## Edits that count members -/

theorem size_eq : h.size = h.types.size := (FinMap.size_keys h.parents).symm

/-- A hierarchy that lacks a member of another, and has no further one, has fewer. -/
theorem size_lt_size {t : Ty} (hsub : ∀ u, h.hasType u → k.hasType u) (hk : k.hasType t)
    (hh : ¬ h.hasType t) : h.size < k.size := by
  rw [size_eq, size_eq]
  refine FinSet.size_lt_size (fun u hu ↦ ?_) (mem_types.2 hk) fun ht ↦ hh (mem_types.1 ht)
  exact mem_types.2 (hsub u (mem_types.1 hu))

theorem generation_ensureEach : (h.ensureEach spelling names).value.generation = h.generation := by
  induction names generalizing h with
  | nil => rfl
  | cons name rest ih =>
    rw [ensureEach]
    split
    · exact ih
    · exact ih.trans generation_ensureNode

/-- What is ensured are the names that are not reserved. -/
theorem hasType_ensureEach {t : Ty} : (h.ensureEach spelling names).value.hasType t ↔
    h.hasType t ∨ ∃ name ∈ names, t = .named name ∧ spelling.reserves name = false := by
  induction names generalizing h with
  | nil => simp [ensureEach]
  | cons name rest ih =>
    simp only [List.mem_cons, exists_eq_or_imp]
    rw [ensureEach]
    split
    · rename_i hreserved
      rw [Journaled.value_bind, ih]
      simp [hreserved]
    · rename_i hopen
      rw [ih, hasType_ensureNode]
      simp only [Bool.not_eq_true] at hopen
      simp only [hopen, and_true]
      tauto

/-- Either there is nothing to be ensured, or some name becomes a member. -/
theorem ensureEach_eq_self_or : (h.ensureEach spelling names).value = h ∨
    h.size < (h.ensureEach spelling names).value.size := by
  induction names generalizing h with
  | nil => exact .inl rfl
  | cons name rest ih =>
    rw [ensureEach]
    split
    · exact ih
    · by_cases hmem : h.hasType (.named name)
      · rw [ensureNode, if_pos hmem]
        exact ih
      · -- the name counts as one more member, whatever comes of the rest
        refine .inr (size_lt_size (fun u hu ↦ ?_) (hasType_ensureEach.2 (.inl ?_)) hmem)
        · exact hasType_ensureEach.2 (.inl (hasType_ensureNode.2 (.inr hu)))
        · exact hasType_ensureNode.2 (.inl rfl)

theorem counted_ensureTypes : Counted h (h.ensureTypes spelling names).value := by
  rw [value_ensureTypes]
  split
  · rename_i hsize
    rcases ensureEach_eq_self_or (h := h) with heq | hlt
    · rw [heq]
    · exact absurd hsize (Nat.ne_of_gt hlt)
  · exact .of_advance generation_ensureEach

namespace WellFormed

/-- Either there is nothing to be removed, or some member goes. -/
theorem removeEach_eq_self_or (hw : h.WellFormed) :
    (h.removeEach names).value = h ∨ (h.removeEach names).value.size < h.size := by
  induction names generalizing h with
  | nil => exact .inl rfl
  | cons name rest ih =>
    by_cases hroot : h.root = .named name
    · rw [Hierarchy.removeEach, if_pos hroot]
      exact ih hw
    · by_cases ht : h.hasType (.named name)
      · -- the name does not come back, so it is one member less
        refine .inr (size_lt_size (fun u hu ↦ (hw.hasType_removeEach.1 hu).1) ht fun hu ↦ ?_)
        rcases (hw.hasType_removeEach.1 hu).2 with heq | hnot
        · exact hroot heq.symm
        · exact hnot name List.mem_cons_self rfl
      · rw [Hierarchy.removeEach, if_neg hroot, if_neg ht]
        exact ih hw

theorem counted_remove (hw : h.WellFormed) : Counted h (h.remove names).value := by
  rw [value_remove]
  split
  · rename_i hsize
    rcases hw.removeEach_eq_self_or with heq | hlt
    · rw [heq]
    · exact absurd hsize (Nat.ne_of_lt hlt)
  · exact .of_advance hw.generation_removeEach

/-! ## Requests -/

theorem counted_replace {old new : String} (hw : h.WellFormed) :
    Counted h (h.replace spelling old new).value := by
  rw [Hierarchy.replace]
  split
  · rfl
  · rename_i hne
    split
    · refine .unlessReserved (.of_lt ?_)
      rw [Journaled.value_pure, hw.generation_replaceNode fun heq ↦ hne (Ty.named.inj heq).symm]
      exact Nat.lt_succ_self _
    · exact .refl h

theorem lt_laterGeneration (h k : Hierarchy) : h.generation < h.laterGeneration k :=
  Nat.lt_succ_of_le (Nat.le_max_left ..)

/-- **Requests are counted.** -/
theorem counted_serve (hw : h.WellFormed) (spelling : Spelling) (r : Request Hierarchy) :
    Counted h (h.serve spelling r).value.1 := by
  cases r with
  | add name parents => exact counted_add
  | move name parents => exact counted_move
  | addParents name parents => exact counted_addParents
  | remove names => exact hw.counted_remove
  | replace old new => exact hw.counted_replace
  | ensureTypes names => exact counted_ensureTypes
  | clear => exact .of_advance generation_insertNode
  | assign source => exact .of_lt (lt_laterGeneration h source)
  | merge source =>
    rw [Hierarchy.serve, Journaled.value_bind]
    split
    · rename_i merged hok
      obtain ⟨annotated, -, rfl⟩ := exists_of_merge_eq_ok hok
      exact .of_lt (lt_laterGeneration h source)
    · exact .refl h
  | setAttribute t key value =>
    change Counted h (h.setAttribute t key value).value
    rw [Hierarchy.setAttribute]
    split
    · exact ⟨Nat.le_refl _, fun _ ↦ ⟨rfl, rfl, rfl⟩⟩
    · exact .refl h
  | removeAttribute t key => exact ⟨Nat.le_refl _, fun _ ↦ ⟨rfl, rfl, rfl⟩⟩
  | setOwnAttribute key value => exact ⟨Nat.le_refl _, fun _ ↦ ⟨rfl, rfl, rfl⟩⟩
  | removeOwnAttribute key => exact ⟨Nat.le_refl _, fun _ ↦ ⟨rfl, rfl, rfl⟩⟩

end WellFormed

end Taxonomy.Hierarchy
