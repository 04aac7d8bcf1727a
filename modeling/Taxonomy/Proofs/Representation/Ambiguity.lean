import Taxonomy.Proofs.Hierarchy.Determinism
import Taxonomy.Proofs.Representation.Agreement

/-!
# The first ambiguous pair

The search for two members with several least upper bounds runs through all pairs of names in
lexicographic order and stops at the first one it is looking for (`pairwise_pairs`,
`mem_pairs_iff`). Trees are passed over. That hides no pair: in a tree no two members have several
least upper bounds (`unambiguous_of_isTree`), and as the root leads to every member, it is not by a
cycle that each type has one parent (`WellFormed.acyclic_of_isTree`).
-/

open Relation

namespace Taxonomy

namespace Hierarchy

variable {h : Hierarchy}

/-! ## Trees have no cycles -/

/-- A hierarchy in which no type has several parents has no cycle. -/
theorem WellFormed.acyclic_of_isTree (hw : h.WellFormed) (htree : h.isTree) : h.Acyclic := by
  intro t hcycle
  -- whatever leads to `t` is on a cycle itself, as the next type is and has no other parent
  have hup : ∀ u, ReflTransGen h.Edge u t → TransGen h.Edge u u := by
    intro u hut
    induction hut using ReflTransGen.head_induction_on with
    | refl => exact hcycle
    | @head u v huv _ ih =>
      obtain ⟨p, hvp, hpv⟩ := TransGen.tail'_iff.1 ih
      obtain rfl : p = u := (isTree_iff hw.mirrored).1 htree p u v hpv huv
      exact .head' huv hvp
  have ht : h.hasType t := (hw.mirrored.hasType_of_transGen (d := .down) hcycle).1
  obtain ⟨p, -, hp⟩ := TransGen.tail'_iff.1 (hup h.root (hw.reached t ht))
  exact hw.not_edge_root p hp

/-! ## Pairs in lexicographic order -/

section Pairs

variable {α : Type} {r : α → α → Prop} {l : List α} {a b : α}

theorem rel_of_mem_pairs (hl : l.Pairwise r) (hp : (a, b) ∈ pairs l) : r a b := by
  induction l with
  | nil => cases hp
  | cons c rest ih =>
    obtain ⟨hc, hrest⟩ := List.pairwise_cons.1 hl
    rw [pairs, List.mem_append, List.mem_map] at hp
    rcases hp with ⟨d, hd, heq⟩ | hp
    · obtain ⟨rfl, rfl⟩ := Prod.mk.inj heq
      exact hc d hd
    · exact ih hrest hp

/-- The pairs of a sorted list are those of a lesser and a greater element. -/
theorem mem_pairs_iff (hasymm : ∀ a b, r a b → ¬ r b a) (hl : l.Pairwise r) :
    (a, b) ∈ pairs l ↔ a ∈ l ∧ b ∈ l ∧ r a b := by
  constructor
  · intro hp
    obtain ⟨ha, hb⟩ := mem_of_mem_pairs hp
    exact ⟨ha, hb, rel_of_mem_pairs hl hp⟩
  · rintro ⟨ha, hb, hab⟩
    have hne : a ≠ b := by
      rintro rfl
      exact hasymm a a hab hab
    exact (mem_pairs_or ha hb hne).resolve_right fun hp ↦ hasymm a b hab (rel_of_mem_pairs hl hp)

/-- The pairs of a sorted list are sorted lexicographically. -/
theorem pairwise_pairs (hl : l.Pairwise r) : (pairs l).Pairwise (Prod.Lex r r) := by
  induction l with
  | nil => exact .nil
  | cons a rest ih =>
    obtain ⟨ha, hrest⟩ := List.pairwise_cons.1 hl
    rw [pairs, List.pairwise_append, List.pairwise_map]
    refine ⟨hrest.imp (.right a), ih hrest, ?_⟩
    rintro p hp ⟨c, d⟩ hq
    obtain ⟨b, -, rfl⟩ := List.mem_map.1 hp
    exact .left b d (ha c (mem_of_mem_pairs hq).1)

/-- A search through a sorted list finds the least element that passes. -/
private theorem eq_or_rel_of_find? {p : α → Bool} (hl : l.Pairwise r) (hfind : l.find? p = some a)
    (hb : b ∈ l) (hpass : p b) : b = a ∨ r a b := by
  obtain ⟨-, before, after, rfl, hbefore⟩ := List.find?_eq_some_iff_append.1 hfind
  rcases List.mem_append.1 hb with hb | hb
  · have hnot := hbefore b hb
    rw [hpass] at hnot
    cases hnot
  · rcases List.mem_cons.1 hb with rfl | hb
    · exact .inl rfl
    · obtain ⟨-, hafter, -⟩ := List.pairwise_append.1 hl
      exact .inr ((List.pairwise_cons.1 hafter).1 b hb)

end Pairs

/-! ## The search -/

/-- That trees are passed over hides nothing. -/
theorem answer_ambiguousPair_eq (hm : h.Mirrored) : h.ambiguousPair.answer h =
    (pairs h.types.toList).find? fun p ↦ 1 < (h.bounds .leastUpper p.1 p.2).size := by
  rw [answer_ambiguousPair]
  split
  · rename_i htree
    refine (List.find?_eq_none.2 fun p hp ↦ ?_).symm
    obtain ⟨hleft, hright⟩ := mem_of_mem_pairs hp
    rw [FinSet.mem_toList, mem_types] at hleft hright
    rw [decide_eq_true_eq, not_lt, FinSet.size_le_one_iff]
    exact unambiguous_of_isTree hm htree p.1 p.2 hleft hright
  · rfl

end Hierarchy

namespace Representation

variable {h : Hierarchy} {r : Representation} {m n : String}

/-- Two members, in the order of their names, that have several least upper bounds. -/
structure Ambiguous (r : Representation) (m n : String) : Prop where
  hasType_left : r.hierarchy.hasType (.named m)
  hasType_right : r.hierarchy.hasType (.named n)
  lt : m < n
  several : 1 < (r.lookUpBounds .leastUpper (.named m) (.named n)).value.1.length

/-- The lexicographically first ambiguous pair, or nothing if there is none. -/
def FirstAmbiguous (r : Representation) : Option (Ty × Ty) → Prop
  | none => ∀ m n, ¬ r.Ambiguous m n
  | some pair => ∃ m n, pair = (.named m, .named n) ∧ r.Ambiguous m n ∧
      ∀ m' n', r.Ambiguous m' n' → m < m' ∨ m = m' ∧ n ≤ n'

/-- Ambiguous pairs are those that the search is for. -/
theorem Sound.ambiguous_iff (hs : r.Sound) (hm : r.hierarchy.Mirrored) :
    r.Ambiguous m n ↔ (.named m, .named n) ∈ Hierarchy.pairs r.hierarchy.types.toList ∧
      1 < (r.hierarchy.bounds .leastUpper (.named m) (.named n)).size := by
  have hlength : (r.lookUpBounds .leastUpper (.named m) (.named n)).value.1.length =
      (r.hierarchy.bounds .leastUpper (.named m) (.named n)).size := by
    rw [(hs.lookUpBounds hm .leastUpper (.named m) (.named n)).eq_answer, FinSet.length_toList]
  rw [Hierarchy.mem_pairs_iff (fun _ _ ↦ Std.OrientedCmp.not_lt_of_lt) (FinSet.ascending _),
    FinSet.mem_toList, FinSet.mem_toList, Hierarchy.mem_types, Hierarchy.mem_types,
    Ty.compare_named_eq_lt_iff, ← hlength]
  exact ⟨fun ⟨hleft, hright, hlt, hseveral⟩ ↦ ⟨⟨hleft, hright, hlt⟩, hseveral⟩,
    fun ⟨⟨hleft, hright, hlt⟩, hseveral⟩ ↦ ⟨hleft, hright, hlt, hseveral⟩⟩

/-- The search comes to the first ambiguous pair. -/
theorem Sound.firstAmbiguous (hs : r.Sound) (hw : r.hierarchy.WellFormed) :
    r.FirstAmbiguous (r.hierarchy.ambiguousPair.answer r.hierarchy) := by
  have hm := hw.mirrored
  rw [Hierarchy.answer_ambiguousPair_eq hm]
  cases hfind : (Hierarchy.pairs r.hierarchy.types.toList).find? fun p ↦
      1 < (r.hierarchy.bounds .leastUpper p.1 p.2).size with
  | none =>
    intro m n hamb
    obtain ⟨hpair, hseveral⟩ := (hs.ambiguous_iff hm).1 hamb
    exact List.find?_eq_none.1 hfind _ hpair (decide_eq_true hseveral)
  | some pair =>
    obtain ⟨left, right⟩ := pair
    have hpair := List.mem_of_find?_eq_some hfind
    have hseveral := List.find?_some hfind
    obtain ⟨hleft, hright⟩ := Hierarchy.mem_of_mem_pairs hpair
    rw [FinSet.mem_toList, Hierarchy.mem_types] at hleft hright
    obtain ⟨m, rfl⟩ := hw.named left hleft
    obtain ⟨n, rfl⟩ := hw.named right hright
    refine ⟨m, n, rfl, (hs.ambiguous_iff hm).2 ⟨hpair, of_decide_eq_true hseveral⟩, ?_⟩
    intro m' n' hamb
    obtain ⟨hpair', hseveral'⟩ := (hs.ambiguous_iff hm).1 hamb
    have hsorted := Hierarchy.pairwise_pairs (FinSet.ascending r.hierarchy.types)
    rcases Hierarchy.eq_or_rel_of_find? hsorted hfind hpair' (decide_eq_true hseveral')
      with heq | hlex
    · obtain ⟨hmm, hnn⟩ := Prod.mk.inj heq
      obtain rfl := Ty.named.inj hmm
      obtain rfl := Ty.named.inj hnn
      exact .inr ⟨rfl, Std.le_refl _⟩
    · rcases Prod.lex_iff.1 hlex with hlt | ⟨hmm, hlt⟩
      · exact .inl (Ty.compare_named_eq_lt_iff.1 hlt)
      · exact .inr ⟨Ty.named.inj hmm, Std.le_of_lt (Ty.compare_named_eq_lt_iff.1 hlt)⟩

/-- **The search for an ambiguous pair** finds the lexicographically first pair of members, by name
and with the lesser name on the left, that has several least upper bounds, or nothing if there is no
such pair. That is so for every representation, whatever it forgets during the search. A hierarchy
whose types have at most one parent each has no cycle, and no two of its members have several least
upper bounds; so it is right to pass over it. -/
theorem Tracks.finds_first_ambiguous (ht : Tracks r h) :
    r.FirstAmbiguous (r.hierarchy.ambiguousPair.run r).value.1 ∧
    (∀ pair last, r.hierarchy.ambiguousPair.Yields r pair last → r.FirstAmbiguous pair) ∧
    ((∀ t, r.hierarchy.hasType t → (r.hierarchy.parentsOf t).size ≤ 1) →
      r.hierarchy.Acyclic ∧ ∀ s t, r.hierarchy.hasType s → r.hierarchy.hasType t →
        (r.lookUpBounds .leastUpper s t).value.1.length ≤ 1) := by
  obtain ⟨hg, rfl, hsound⟩ := ht.faithful
  have hw : r.hierarchy.WellFormed := hg.wellFormed
  have hm := hw.mirrored
  have hyields : ∀ pair last, r.hierarchy.ambiguousPair.Yields r pair last →
      r.FirstAmbiguous pair := by
    intro pair last hy
    have heq : pair = _ := (hy.looksUp hsound hm).eq_answer
    rw [heq]
    exact hsound.firstAmbiguous hw
  refine ⟨hyields _ _ (Inquiry.yields_run _ r), hyields, fun hone ↦ ?_⟩
  have htree : r.hierarchy.isTree := by
    rw [Hierarchy.isTree, List.all_eq_true]
    intro t ht
    exact decide_eq_true (hone t (Hierarchy.mem_types.1 (FinSet.mem_toList.1 ht)))
  refine ⟨hw.acyclic_of_isTree htree, fun s t hs ht ↦ ?_⟩
  rw [(hsound.lookUpBounds hm .leastUpper s t).eq_answer, FinSet.length_toList,
    FinSet.size_le_one_iff]
  exact Hierarchy.unambiguous_of_isTree hm htree s t hs ht

/-- Two types, `a` and `b`, with two types below both, and a type on a cycle with `b`. -/
def tangle : Hierarchy :=
  [.add "a" [], .add "b" [], .add "c" ["a", "b"], .add "d" ["a", "b"], .add "e" ["b"],
    .addParents "b" ["e"]].foldl (fun h r ↦ (h.serve {} r).value.1) (Hierarchy.new "r")

theorem grown_tangle : tangle.Grown := by
  refine Hierarchy.Grown.foldl_serve (.new "r") {} ?_
  simp [Request.sources]

/-- The pair is found by a memo around rows with a scope, cycle or no cycle. -/
theorem finds_first_ambiguous_tangle :
    tangle.isCircular ∧
    Tracks ((compiled { hierarchy := tangle, scope := some (.named "b") }).memoize 1) tangle ∧
    ((compiled { hierarchy := tangle, scope := some (.named "b") }).memoize 1).FirstAmbiguous
      (some (.named "a", .named "b")) := by
  have htracks : Tracks ((compiled { hierarchy := tangle, scope := some (.named "b") }).memoize 1)
      tangle := .memoize (.compiled grown_tangle _) 1
  have hfound : (tangle.ambiguousPair.run
      ((compiled { hierarchy := tangle, scope := some (.named "b") }).memoize 1)).value.1 =
        some (.named "a", .named "b") := by decide +kernel
  exact ⟨by decide, htracks, hfound ▸ htracks.finds_first_ambiguous.1⟩

end Representation

end Taxonomy
