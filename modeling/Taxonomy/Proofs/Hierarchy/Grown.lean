import Taxonomy.Hierarchy.Request
import Taxonomy.Proofs.Hierarchy.Insertion
import Taxonomy.Proofs.Hierarchy.Merging
import Taxonomy.Proofs.Hierarchy.Removal
import Taxonomy.Proofs.Hierarchy.Replacement

/-!
# Grown hierarchies

A hierarchy is *grown* if it began with a root alone and has been changed by nothing but requests.
The hierarchies that requests take over are grown likewise. What the reserved values are spelled
like may change from request to request.

Every request keeps hierarchies well-formed (`WellFormed.serve`), so all grown hierarchies are
(`Grown.wellFormed`).
-/

open Relation

namespace Taxonomy

/-- The hierarchies that a request takes over. -/
def Request.sources {σ : Type} : Request σ → List σ
  | assign source | merge source => [source]
  | _ => []

namespace Hierarchy

variable {h : Hierarchy} {t : Ty}

/-- A hierarchy that has come from a root by requests. -/
inductive Grown : Hierarchy → Prop
  | new (root : String) : Grown (.new root)
  | serve {h : Hierarchy} (spelling : Spelling) {r : Request Hierarchy} (hh : Grown h)
      (hsources : ∀ k ∈ r.sources, Grown k) : Grown (h.serve spelling r).value.1

namespace WellFormed

/-! ## Requests about a hierarchy as a whole -/

theorem new (root : String) : (Hierarchy.new root).WellFormed := of_alone ⟨root, rfl⟩ ∅ 0

theorem clear (hw : h.WellFormed) : h.clear.WellFormed :=
  (of_alone (hw.named h.root hw.hasType_root) ∅ h.generation).advance

/-- A copy is as well-formed as what is copied. -/
theorem assign {source : Hierarchy} (hs : source.WellFormed) :
    (h.assign source).value.WellFormed :=
  hs.of_sameStructure ⟨rfl, rfl, rfl⟩ hs.annotated

/-! ## Annotations -/

/-- Only members are annotated. -/
theorem setAttribute (hw : h.WellFormed) (t : Ty) (key : String) (value : Attribute) :
    (h.setAttribute t key value).value.WellFormed := by
  rw [Hierarchy.setAttribute]
  split
  · rename_i ht
    refine hw.of_sameStructure ⟨rfl, rfl, rfl⟩ fun u hu ↦ ?_
    rw [Journaled.value_pure, FinMap.contains_upsert] at hu
    rcases hu with rfl | hu
    · exact ht
    · exact hw.annotated u hu
  · exact hw

theorem removeAttribute (hw : h.WellFormed) (t : Ty) (key : String) :
    (h.removeAttribute t key).WellFormed := by
  refine hw.of_sameStructure ⟨rfl, rfl, rfl⟩ fun u hu ↦ hw.annotated u ?_
  rwa [Hierarchy.removeAttribute, FinMap.contains_modify] at hu

/-! ## Requests -/

/-- **A request keeps a hierarchy well-formed**, whether or not it is refused. -/
theorem serve (hw : h.WellFormed) (spelling : Spelling) {r : Request Hierarchy}
    (hsources : ∀ k ∈ r.sources, k.WellFormed) : (h.serve spelling r).value.1.WellFormed := by
  cases r with
  | add name parents => exact hw.add
  | move name parents => exact hw.move
  | addParents name parents => exact hw.addParents
  | remove names => exact hw.remove
  | replace old new => exact hw.replace
  | ensureTypes names => exact hw.ensureTypes
  | clear => exact hw.clear
  | assign source => exact (hsources source List.mem_cons_self).assign
  | merge source =>
    rw [Hierarchy.serve, Journaled.value_bind]
    split
    · rename_i merged hok
      exact hw.merge (hsources source List.mem_cons_self) hok
    · exact hw
  | setAttribute t key value => exact hw.setAttribute t key value
  | removeAttribute t key => exact hw.removeAttribute t key
  | setOwnAttribute key value => exact hw.of_sameStructure ⟨rfl, rfl, rfl⟩ hw.annotated
  | removeOwnAttribute key => exact hw.of_sameStructure ⟨rfl, rfl, rfl⟩ hw.annotated

end WellFormed

namespace Grown

/-- Grown hierarchies are well-formed. -/
theorem wellFormed (hg : h.Grown) : h.WellFormed := by
  induction hg with
  | new root => exact .new root
  | serve spelling _ _ ih ihsources => exact ih.serve spelling ihsources

/-- A history of requests that take over grown hierarchies grows a hierarchy. -/
theorem foldl_serve {requests : List (Request Hierarchy)} (hg : h.Grown) (spelling : Spelling)
    (hsources : ∀ r ∈ requests, ∀ k ∈ r.sources, k.Grown) :
    (requests.foldl (fun h r ↦ (h.serve spelling r).value.1) h).Grown := by
  induction requests generalizing h with
  | nil => exact hg
  | cons r rest ih =>
    obtain ⟨hr, hrest⟩ := List.forall_mem_cons.1 hsources
    exact ih (hg.serve spelling hr) hrest

/-- **Every grown hierarchy is in order.** Its maps have the same keys and are inverse to each
other, its members are named, the root is a member without parents, no type is its own parent, child
edges lead from the root to every member, and only members are annotated. -/
theorem maps_inverse_and_reached (hg : h.Grown) :
    h.parents.keys = h.children.keys ∧
    (∀ a b, a ∈ h.parentsOf b ↔ b ∈ h.childrenOf a) ∧
    (∀ t, h.hasType t → ∃ name, t = .named name) ∧
    h.hasType h.root ∧ h.parentsOf h.root = ∅ ∧
    (∀ t, t ∉ h.parentsOf t) ∧
    (∀ t, h.hasType t → ReflTransGen (fun a b ↦ b ∈ h.childrenOf a) h.root t) ∧
    ∀ t, h.attributes.contains t → h.hasType t := by
  have hw : h.WellFormed := hg.wellFormed
  refine ⟨?_, hw.mirrored.mem_parentsOf_iff, hw.named, hw.hasType_root, ?_, fun t ht ↦ ?_,
    hw.reached, hw.annotated⟩
  · rw [FinMap.keys_eq_iff]
    exact fun t ↦ (hw.mirrored.contains_children_iff t).symm
  · refine FinSet.ext fun a ↦ ?_
    rw [hw.mirrored.mem_parentsOf_iff]
    exact iff_of_false (hw.not_edge_root a) (FinSet.not_mem_empty a)
  · exact hw.irrefl t ((hw.mirrored.mem_parentsOf_iff t t).1 ht)

end Grown

/-- Two types on a cycle, `a` and `b`, and a type below both. -/
def knot : Hierarchy :=
  [.add "a" [], .add "b" ["a"], .addParents "a" ["b"], .add "c" ["b"]].foldl
    (fun h r ↦ (h.serve {} r).value.1) (Hierarchy.new "r")

theorem grown_knot : knot.Grown := by
  refine Grown.foldl_serve (.new "r") {} ?_
  simp [Request.sources]

/-- On a cycle the root still leads everywhere. -/
theorem maps_inverse_and_reached_knot :
    knot.Grown ∧ knot.isCircular ∧ knot.hasType (.named "c") ∧
      ReflTransGen (fun a b ↦ b ∈ knot.childrenOf a) knot.root (.named "c") := by
  have hmember : knot.hasType (.named "c") := by decide
  obtain ⟨-, -, -, -, -, -, hreached, -⟩ := grown_knot.maps_inverse_and_reached
  exact ⟨grown_knot, by decide, hmember, hreached _ hmember⟩

end Hierarchy

end Taxonomy
