import Taxonomy.Proofs.Hierarchy.Comparison
import Taxonomy.Proofs.Representation.Agreement
import Taxonomy.Session.Reading

/-!
# Equal hierarchies are alike

Comparison looks at the root, at the map of parents and at annotations. It passes over the map of
children, by which everything that goes down finds its way, and over the generation. The map of
children need not be looked at, because in hierarchies that have been edited it is the inverse of
the map of parents (`Mirrored.children_eq`): hierarchies that compare equal have the same structure
(`Mirrored.sameStructure_of_sameAs`), whatever their histories.

The structure is all that walks and queries look at. A query put to hierarchies of the same
structure is one and the same inquiry (`SameStructure.inquire_eq`), and takes the same course in
both (`SameStructure.run_plain_eq`).
-/

namespace Taxonomy

/-- Whether a reading shows nothing that comparison passes over: neither the generation, nor whether
there is a map of annotations that is empty. -/
def Reading.isCompared : Reading → Bool
  | .state | .everything | .generation | .attributes _ => false
  | _ => true

namespace Hierarchy

variable {α ρ : Type} {h k : Hierarchy}

/-! ## From comparison to structure -/

/-- Equal maps of parents have equal inverses. -/
theorem Mirrored.children_eq (hh : h.Mirrored) (hk : k.Mirrored)
    (hparents : h.parents = k.parents) : h.children = k.children := by
  obtain ⟨hmem, hedge⟩ := (hh.parents_eq_iff hk).1 hparents
  refine FinMap.ext_getD ∅ (fun t ↦ ?_) fun a ↦ FinSet.ext (hedge a)
  rw [hh.contains_children_iff, hk.contains_children_iff, hmem]

/-- Hierarchies that compare equal differ in annotations that are empty and in the generation at
most. -/
theorem Mirrored.sameStructure_of_sameAs (hh : h.Mirrored) (hk : k.Mirrored)
    (hsame : h.sameAs k) : SameStructure h k := by
  obtain ⟨hroot, hparents, -, -⟩ := of_decide_eq_true hsame
  exact ⟨hroot.symm, hparents.symm, (hh.children_eq hk hparents).symm⟩

/-! ## What depends on the structure alone -/

namespace SameStructure

theorem walk_eq (hk : SameStructure h k) (plan : Plan) (visitor : Visitor ρ) :
    k.walk plan visitor = h.walk plan visitor := hk.congr (·.walk plan visitor) fun _ _ _ ↦ rfl

theorem subsumes_eq (hk : SameStructure h k) : k.subsumes = h.subsumes :=
  hk.congr subsumes fun _ _ _ ↦ rfl

/-- The first minimal type is taken away again and again, and each time it is the same one. -/
theorem takeMinimal_eq (hk : SameStructure h k) (taken : List Ty) (fuel : Nat)
    (remaining : List Ty) :
    k.takeMinimal taken fuel remaining = h.takeMinimal taken fuel remaining := by
  have hfirst : k.firstMinimal? = h.firstMinimal? := hk.congr firstMinimal? fun _ _ _ ↦ rfl
  induction fuel generalizing taken remaining with
  | zero => cases remaining <;> rfl
  | succ fuel ih =>
    cases remaining with
    | nil => rfl
    | cons first rest =>
      rw [takeMinimal, takeMinimal, hfirst]
      exact congrArg (_ >>= ·) (funext fun next ↦ ih _ _)

/-- **A query is one inquiry** about all hierarchies of a structure. -/
theorem inquire_eq (hk : SameStructure h k) (setting : Setting) (query : Query) :
    query.inquire setting k = query.inquire setting h := by
  cases query with
  | subsort types => exact congrArg (Reply.types <$> ·) (hk.takeMinimal_eq [] _ _)
  | table cell types =>
    exact hk.congr (Query.inquire setting · _) fun _ _ _ ↦ by cases cell <;> rfl
  | _ => exact hk.congr (Query.inquire setting · _) fun _ _ _ ↦ rfl

/-- **Inquiries take the same course** in hierarchies of the same structure: they come to the same,
and the same happens on the way. -/
theorem run_plain_eq (hk : SameStructure h k) (x : Inquiry α) :
    Prod.fst <$> x.run (.plain k) = Prod.fst <$> x.run (.plain h) := by
  induction x with
  | done a => rfl
  | subsumes general specific next ih =>
    refine (ih (k.subsumes general specific)).trans ?_
    rw [hk.subsumes_eq]
    rfl
  | bounds b left right next ih =>
    refine (ih (k.bounds b left right).toList).trans ?_
    rw [hk.bounds_eq]
    rfl
  | note event next ih =>
    simp only [Inquiry.run, map_bind, ih]

theorem answer_eq (hk : SameStructure h k) (x : Inquiry α) : x.answer k = x.answer h := by
  have hrun := congrArg Journaled.value (hk.run_plain_eq x)
  rwa [Journaled.value_map, Journaled.value_map, Inquiry.value_run_plain,
    Inquiry.value_run_plain] at hrun

end SameStructure

/-- Readings that show nothing else are the same if comparison succeeds. -/
theorem SameStructure.read_eq (hk : SameStructure h k) (hsame : h.sameAs k) {reading : Reading}
    (hreading : reading.isCompared) : k.read reading = h.read reading := by
  obtain ⟨-, -, hown, hannotations⟩ := of_decide_eq_true hsame
  cases reading with
  | state | everything | generation | attributes t => cases hreading
  | attributeOf t key =>
    exact congrArg Reply.attributeValue (annotations_eq_iff.1 hannotations t key).symm
  | ownAttributes => exact congrArg (Reply.attributes ∘ some) hown.symm
  | ownAttribute key => exact congrArg (Reply.attributeValue <| FinMap.get? · key) hown.symm
  | commonNeighbours direction left right =>
    exact hk.congr (·.read (.commonNeighbours direction left right)) fun _ _ _ ↦ by
      cases direction <;> rfl
  | _ => exact hk.congr (·.read _) fun _ _ _ ↦ rfl

/-- **Equal hierarchies are alike.** Whatever the histories of two hierarchies, if they compare
equal they have the same children. All that is read off them is the same, except for the generation
and for maps of annotations that are empty. Every visitor is led on the same walk. Subsumption and
bounds are looked up the same, and every query comes to the same with the same notices and the same
questions to hooks, and comes to the same in whatever ways the two are represented. -/
theorem Grown.equal_hierarchies_alike (hh : h.Grown) (hk : k.Grown) (hsame : h.sameAs k = true) :
    h.children = k.children ∧
    (∀ reading : Reading, reading.isCompared = true → h.read reading = k.read reading) ∧
    (∀ (plan : Plan) (visitor : Visitor ρ), h.walk plan visitor = k.walk plan visitor) ∧
    h.subsumes = k.subsumes ∧ h.bounds = k.bounds ∧
    (∀ setting (query : Query), Prod.fst <$> (query.inquire setting h).run (.plain h) =
      Prod.fst <$> (query.inquire setting k).run (.plain k)) ∧
    ∀ r r' : Representation, r.Tracks h → r'.Tracks k → ∀ setting (query : Query),
      ((query.inquire setting r.hierarchy).run r).value.1 =
        ((query.inquire setting r'.hierarchy).run r').value.1 := by
  have hstructure : SameStructure h k :=
    hh.wellFormed.mirrored.sameStructure_of_sameAs hk.wellFormed.mirrored hsame
  refine ⟨hstructure.children_eq.symm, fun reading hreading ↦ ?_, fun plan visitor ↦ ?_,
    hstructure.subsumes_eq.symm, ?_, fun setting query ↦ ?_, fun r r' hr hr' setting query ↦ ?_⟩
  · exact (hstructure.read_eq hsame hreading).symm
  · exact (hstructure.walk_eq plan visitor).symm
  · funext b left right
    exact (hstructure.bounds_eq b left right).symm
  · rw [hstructure.inquire_eq]
    exact (hstructure.run_plain_eq _).symm
  · obtain ⟨hanswer, -⟩ := hr.faithful.run (query.inquire setting r.hierarchy)
    obtain ⟨hanswer', -⟩ := hr'.faithful.run (query.inquire setting r'.hierarchy)
    rw [hanswer, hanswer', hr.faithful.hierarchy_eq, hr'.faithful.hierarchy_eq,
      hstructure.inquire_eq, hstructure.answer_eq]

/-- The knot by another history: all of its types have had other names or other parents, and one of
them an annotation. -/
def retied : Hierarchy :=
  [.add "a" [], .add "c" [], .add "d" ["a"], .addParents "a" ["d"], .replace "d" "b",
    .move "c" ["b"], .setAttribute (.named "a") "key" (.flag true),
    .removeAttribute (.named "a") "key", .replace "s" "r"].foldl
    (fun h r ↦ (h.serve {} r).value.1) (Hierarchy.new "s")

theorem grown_retied : retied.Grown := by
  refine Grown.foldl_serve (.new "s") {} ?_
  simp [Request.sources]

/-- The generations differ and so do the maps of annotations. The leaves, a walk up and a sorting
that the cycle stalls do not, even with rows and a memo on one side. -/
theorem equal_hierarchies_alike_knot :
    let memoized : Representation := (Representation.compiled { hierarchy := retied }).memoize 4
    let query : Query := .subsort [.named "c", .named "b", .named "a"]
    knot.Grown ∧ retied.Grown ∧ knot.sameAs retied = true ∧
    knot.generation ≠ retied.generation ∧ knot.attributes ≠ retied.attributes ∧
    memoized.Tracks retied ∧ Reading.leaves.isCompared = true ∧
    knot.children = retied.children ∧ knot.read .leaves = retied.read .leaves ∧
    knot.walk { direction := .up } Visitor.never = retied.walk { direction := .up } Visitor.never ∧
    ∀ setting, ((query.inquire setting knot).run (.plain knot)).value.1 =
      ((query.inquire setting memoized.hierarchy).run memoized).value.1 := by
  intro memoized query
  have hsame : knot.sameAs retied = true := by decide +kernel
  have htracks : memoized.Tracks retied := .memoize (.compiled grown_retied none) 4
  obtain ⟨hchildren, hread, hwalk, -, -, -, hquery⟩ :=
    grown_knot.equal_hierarchies_alike (ρ := Empty) grown_retied hsame
  exact ⟨grown_knot, grown_retied, hsame, by decide +kernel, by decide +kernel, htracks, rfl,
    hchildren, hread .leaves rfl, hwalk _ _,
    fun setting ↦ hquery _ memoized (.plain grown_knot) htracks setting query⟩

end Hierarchy

end Taxonomy
