import Taxonomy.Proofs.Hierarchy.Generation
import Taxonomy.Proofs.Representation.Rows
import Taxonomy.Representation.Compiled

/-!
# Compiled hierarchies answer like walking

A compiled hierarchy may hold rows of any age. It is `Sound` if rows that bear its present
generation are the rows of its present structure; older rows may be anything, because they are made
again before they are used. Look-ups keep it sound, and their answers are those of walking
(`Sound.lookUpSubsumes`, `Sound.lookUpBounds`).
-/

namespace Taxonomy.Compiled

variable {c : Compiled} {left right : Ty}

/-- Rows are never of a later generation, and those of the present one are right. -/
def Sound (c : Compiled) : Prop :=
  ∀ rows, c.rows = some rows → rows.generation ≤ c.hierarchy.generation ∧
    (rows.generation = c.hierarchy.generation → rows = Rows.compile c.hierarchy c.scope)

/-! ## Refreshing -/

/-- Refreshing leaves everything as it is, or makes the rows of the present generation. -/
theorem value_refresh : c.refresh.value = c ∧ (c.enabled → c.isCurrent) ∨
    c.refresh.value = { c with rows := some (Rows.compile c.hierarchy c.scope) } := by
  rw [refresh]
  split
  · rename_i hkeep
    refine .inl ⟨rfl, fun henabled ↦ ?_⟩
    simpa [henabled] using hkeep
  · exact .inr rfl

@[simp] theorem hierarchy_refresh : c.refresh.value.hierarchy = c.hierarchy := by
  rcases value_refresh (c := c) with ⟨heq, -⟩ | heq <;> rw [heq]

theorem Sound.refresh (hs : c.Sound) : c.refresh.value.Sound := by
  rcases value_refresh (c := c) with ⟨heq, -⟩ | heq
  · rwa [heq]
  · rw [heq]
    intro rows hrows
    obtain rfl := Option.some.inj hrows
    exact ⟨Nat.le_refl _, fun _ ↦ rfl⟩

/-- The rows that look-ups use are those of the present structure. -/
theorem Sound.eq_compile_of_rows? (hs : c.Sound) {rows : Rows}
    (hrows : c.refresh.value.rows? = some rows) : rows = Rows.compile c.hierarchy c.scope := by
  rw [rows?] at hrows
  split at hrows
  · rename_i henabled
    rcases value_refresh (c := c) with ⟨heq, hcurrent⟩ | heq
    · -- nothing was made, so compilation being on the rows have been current
      rw [heq] at henabled hrows
      refine (hs rows hrows).2 ?_
      simpa [isCurrent, hrows] using hcurrent henabled
    · rw [heq] at hrows
      exact (Option.some.inj hrows).symm
  · exact nomatch hrows

/-- Rows answer for two types if they may be used and number both of them. -/
theorem indexed?_eq_some_iff {rows : Rows} {i j : Nat} :
    c.indexed? left right = some (rows, i, j) ↔
      c.rows? = some rows ∧ rows.indices? left right = some (i, j) := by
  simp [indexed?, Option.bind_eq_some_iff]

/-- Where look-ups are answered by rows, they are the right rows with the right numbers. -/
theorem Sound.of_indexed? (hs : c.Sound) {rows : Rows} {i j : Nat}
    (hij : c.refresh.value.indexed? left right = some (rows, i, j)) :
    rows = Rows.compile c.hierarchy c.scope ∧
      (Rows.compile c.hierarchy c.scope).indices? left right = some (i, j) := by
  obtain ⟨hrows, hnumbers⟩ := indexed?_eq_some_iff.1 hij
  obtain rfl := hs.eq_compile_of_rows? hrows
  exact ⟨rfl, hnumbers⟩

/-! ## Looking up -/

/-- Subsumption is looked up right, and nothing but the rows is refreshed. -/
theorem Sound.lookUpSubsumes (hs : c.Sound) (hm : c.hierarchy.Mirrored) (general specific : Ty) :
    (c.lookUpSubsumes general specific).value =
      (c.hierarchy.subsumes general specific, c.refresh.value) := by
  rw [Compiled.lookUpSubsumes, Journaled.value_bind]
  split
  · rename_i rows i j hij
    obtain ⟨rfl, hnumbers⟩ := hs.of_indexed? hij
    rw [Rows.subsumes_compile hm hnumbers]
    rfl
  · rw [hierarchy_refresh]
    rfl

/-- Bounds are looked up right; with a scope, greatest lower bounds leave the rows alone. -/
theorem Sound.lookUpBounds (hs : c.Sound) (hm : c.hierarchy.Mirrored) (b : Bound)
    (left right : Ty) : (c.lookUpBounds b left right).value =
      ((c.hierarchy.bounds b left right).toList,
        if b = .greatestLower ∧ c.scope.isSome then c else c.refresh.value) := by
  rw [Compiled.lookUpBounds]
  by_cases hscope : b = .greatestLower ∧ c.scope.isSome
  · rw [if_pos hscope, if_pos hscope]
    rfl
  · rw [if_neg hscope, if_neg hscope]
    have hb : b = .greatestLower → c.scope = none := fun hb ↦ by
      simpa [hb] using hscope
    rw [Journaled.value_bind]
    split
    · rename_i rows i j hij
      obtain ⟨rfl, hnumbers⟩ := hs.of_indexed? hij
      rw [Rows.bounds_compile hm hb hnumbers]
      rfl
    · rw [hierarchy_refresh]
      rfl

/-! ## Changes -/

/-- Rows survive a change of the hierarchy that is counted. -/
theorem Sound.withHierarchy {k : Hierarchy} (hs : c.Sound) (hk : c.hierarchy.Counted k) :
    Sound { c with hierarchy := k } := by
  intro rows hrows
  obtain ⟨hle, hright⟩ := hs rows hrows
  have hcounted : c.hierarchy.generation ≤ k.generation := hk.generation_le
  refine ⟨Nat.le_trans hle hcounted, fun (heq : rows.generation = k.generation) ↦ ?_⟩
  -- the rows are as old as both hierarchies, so there has been no change of structure
  have hsame : k.generation = c.hierarchy.generation := by omega
  rw [Rows.compile_eq_of_sameStructure (hk.sameStructure hsame) hsame]
  exact hright (heq.trans hsame)

theorem Sound.setEnabled (hs : c.Sound) (on : Bool) : (c.setEnabled on).Sound := by
  intro rows hrows
  cases on with
  | false => exact nomatch hrows
  | true => exact hs rows hrows

/-! ## A hierarchy that has just been compiled -/

/-- There are no rows yet. -/
theorem sound_unmade (h : Hierarchy) (scope : Option Ty) :
    Sound { hierarchy := h, scope } := fun _ hrows ↦ nomatch hrows

/-- **Compiled rows answer like walking.** With any scope or none, whichever of the two types are
covered, subsumption and the listed bounds of both kinds are those found by walking, and each number
that a look-up comes by, in an index or in a row, has its place in all tables and below the width.
-/
theorem looks_up_like_walking {h : Hierarchy} (hg : h.Grown) (scope : Option Ty) (left right : Ty) :
    (Compiled.lookUpSubsumes { hierarchy := h, scope } left right).value.1 =
      h.subsumes left right ∧
    (∀ b, (Compiled.lookUpBounds { hierarchy := h, scope } b left right).value.1 =
      (h.bounds b left right).toList) ∧
    (Compiled.refresh { hierarchy := h, scope }).value.rows? = some (Rows.compile h scope) ∧
    (∀ i j, (Rows.compile h scope).indices? left right = some (i, j) →
      (Rows.compile h scope).InRange i ∧ (Rows.compile h scope).InRange j) ∧
    ∀ i j, (((Rows.compile h scope).below.getD i ∅).contains j ∨
        ((Rows.compile h scope).above.getD i ∅).contains j) →
      (Rows.compile h scope).InRange i ∧ (Rows.compile h scope).InRange j := by
  have hm : h.Mirrored := hg.wellFormed.mirrored
  have hs : Sound { hierarchy := h, scope } := sound_unmade h scope
  refine ⟨?_, ?_, rfl, ?_, fun i j ↦ Rows.inRange_of_contains hm⟩
  · rw [hs.lookUpSubsumes hm]
  · intro b
    rw [hs.lookUpBounds hm]
  · intro i j hij
    obtain ⟨hi, hj⟩ := Rows.indices?_eq_some_iff.1 hij
    exact ⟨Rows.inRange_of_index? hi, Rows.inRange_of_index? hj⟩

/-- One type within a scope that another is outside of. -/
theorem looks_up_like_walking_knot :
    Hierarchy.knot.Grown ∧
    (Compiled.lookUpBounds { hierarchy := Hierarchy.knot, scope := some (.named "c") }
      .leastUpper (.named "a") (.named "c")).value.1 = [.named "c"] := by
  refine ⟨Hierarchy.grown_knot, ?_⟩
  rw [(looks_up_like_walking Hierarchy.grown_knot _ _ _).2.1]
  decide +kernel

end Taxonomy.Compiled
