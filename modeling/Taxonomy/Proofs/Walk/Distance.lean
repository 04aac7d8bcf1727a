import Mathlib.Data.List.Nodup
import Mathlib.Order.Bounds.Defs
import Taxonomy.Proofs.Walk.BreadthFirst

/-!
# Nearest first

A breadth-first walk visits types by their distance from the seeds: the depth of a visit is the
length of a shortest path to the type (`Nearest.isLeast_depth`), and depths never go down.

## The invariant

The visits and the queue together are one list of types with their depths, `Progress.entries`. A
step adds to the end of this list and changes nothing else in it (`Progress.entries_next`). `Nearest`
says that depths never go down along the list and that those in the queue differ by one at most, that
each depth is the length of a path, and that the successors of a type visited are on the list, at
most one deeper than the type. Once nothing waits, the last of these makes each depth the least.
-/

namespace Taxonomy

/-- A path of `n` edges leads to a type from one of those where paths begin. -/
inductive PathFrom (start : Ty → Prop) (r : Ty → Ty → Prop) : Nat → Ty → Prop
  | here {t : Ty} (ht : start t) : PathFrom start r 0 t
  | tail {n : Nat} {p t : Ty} (path : PathFrom start r n p) (edge : r p t) :
    PathFrom start r (n + 1) t

namespace Walk

variable {successors : Ty → FinSet Ty} {blocked : FinSet Ty} {seeds : List Ty} {track : Bool}
  {progress : Progress} {queue rest : List (Ty × Nat)} {t : Ty} {depth : Nat}

/-- An edge that does not enter a `blocked` type. -/
def Free (successors : Ty → FinSet Ty) (blocked : FinSet Ty) (a b : Ty) : Prop :=
  b ∈ successors a ∧ b ∉ blocked

namespace Progress

/-- What has been visited and what waits, with its depth, first to last. -/
def entries (progress : Progress) (queue : List (Ty × Nat)) : List (Ty × Nat) :=
  progress.past.reverse.map (fun now ↦ (now.type, now.depth)) ++ queue

/-- What a visit finds joins the end of the list; the visit itself was on it already. -/
theorem entries_next : (progress.next track successors t depth).entries
    (rest ++ progress.found successors t depth) =
      progress.entries ((t, depth) :: rest) ++ progress.found successors t depth := by
  simp [entries, visit]

theorem mem_known_iff : t ∈ progress.known (queue.map Prod.fst) ↔
    ∃ d, (t, d) ∈ progress.entries queue := by
  simp only [known, entries, List.mem_append, List.mem_map, List.mem_reverse, exists_or]
  refine or_congr ⟨?_, ?_⟩ ⟨?_, ?_⟩
  · rintro ⟨now, hnow, rfl⟩
    exact ⟨now.depth, now, hnow, rfl⟩
  · rintro ⟨d, now, hnow, heq⟩
    exact ⟨now, hnow, congrArg Prod.fst heq⟩
  · rintro ⟨⟨u, d⟩, hmem, rfl⟩
    exact ⟨d, hmem⟩
  · rintro ⟨d, hmem⟩
    exact ⟨(t, d), hmem, rfl⟩

end Progress

/-- Types have been visited, and wait to be, in the order of their distance from the seeds. -/
structure Nearest (successors : Ty → FinSet Ty) (blocked : FinSet Ty) (seeds : List Ty)
    (queue : List (Ty × Nat)) (progress : Progress) : Prop where
  /-- Depths never go down. -/
  ascending : (progress.entries queue).Pairwise fun e f ↦ e.2 ≤ f.2
  /-- What waits is of one depth or of two successive ones. -/
  close : ∀ e ∈ queue, ∀ f ∈ queue, e.2 ≤ f.2 + 1
  /-- Each depth is the length of a path. -/
  path : ∀ e ∈ progress.entries queue, PathFrom (· ∈ seeds) (Free successors blocked) e.2 e.1
  /-- The seeds come at depth zero. -/
  seeded : ∀ s ∈ seeds, (s, 0) ∈ progress.entries queue
  /-- The successors of what was visited come at most one deeper. -/
  near : ∀ now ∈ progress.past, ∀ u, Free successors blocked now.type u →
    ∃ d ≤ now.depth + 1, (u, d) ∈ progress.entries queue

namespace Nearest

theorem initial (successors : Ty → FinSet Ty) (blocked : FinSet Ty) (seeds : List Ty) :
    Nearest successors blocked seeds (seeds.map (·, 0)) ⟨[], blocked.insertAll seeds, ∅⟩ where
  ascending := List.pairwise_map.2 (List.pairwise_of_forall fun _ _ ↦ Nat.le_refl 0)
  close e he f hf := by
    obtain ⟨s, -, rfl⟩ := List.mem_map.1 he
    exact Nat.zero_le _
  path e he := by
    obtain ⟨s, hs, rfl⟩ := List.mem_map.1 he
    exact .here hs
  seeded s hs := List.mem_map_of_mem hs
  near _ hnow := absurd hnow List.not_mem_nil

/-- What comes after the front of the queue is at least as deep. -/
theorem le_of_mem_rest (h : Nearest successors blocked seeds ((t, depth) :: rest) progress) :
    ∀ e ∈ rest, depth ≤ e.2 :=
  (List.pairwise_cons.1 (List.pairwise_append.1 h.ascending).2.1).1

/-- Nothing on the list is more than one deeper than the front of the queue. -/
theorem le_succ_of_mem_entries
    (h : Nearest successors blocked seeds ((t, depth) :: rest) progress) :
    ∀ e ∈ progress.entries ((t, depth) :: rest), e.2 ≤ depth + 1 := by
  intro e he
  rcases List.mem_append.1 he with hpast | hqueue
  · have hle : e.2 ≤ depth :=
      (List.pairwise_append.1 h.ascending).2.2 e hpast (t, depth) List.mem_cons_self
    omega
  · exact h.close e hqueue (t, depth) List.mem_cons_self

/-- What waits after a visit is as deep as the type visited, or one deeper. -/
theorem depth_of_mem_queue (h : Nearest successors blocked seeds ((t, depth) :: rest) progress) :
    ∀ e ∈ rest ++ progress.found successors t depth, depth ≤ e.2 ∧ e.2 ≤ depth + 1 := by
  intro e he
  rcases List.mem_append.1 he with hrest | hfound
  · exact ⟨h.le_of_mem_rest e hrest,
      h.close e (List.mem_cons_of_mem _ hrest) (t, depth) List.mem_cons_self⟩
  · rw [(Progress.mem_found.1 hfound).2.2]
    exact ⟨Nat.le_succ depth, Nat.le_refl _⟩

/-- A successor of the type visited is found now, or was found at a depth that is not too large. -/
theorem exists_entry_of_free
    (hu : Underway successors blocked seeds (t :: rest.map Prod.fst) progress)
    (h : Nearest successors blocked seeds ((t, depth) :: rest) progress) {u : Ty}
    (hfree : Free successors blocked t u) : ∃ d ≤ depth + 1,
      (u, d) ∈ progress.entries ((t, depth) :: rest) ++ progress.found successors t depth := by
  by_cases hmarked : u ∈ progress.visited
  · have hknown := ((hu.mem_visited_iff u).1 hmarked).resolve_left hfree.2
    obtain ⟨d, hmem⟩ : ∃ d, (u, d) ∈ progress.entries ((t, depth) :: rest) :=
      Progress.mem_known_iff.1 hknown
    exact ⟨d, h.le_succ_of_mem_entries _ hmem, List.mem_append_left _ hmem⟩
  · refine ⟨depth + 1, Nat.le_refl _, List.mem_append_right _ (Progress.mem_found.2 ?_)⟩
    exact ⟨hfree.1, hmarked, rfl⟩

/-- Visiting the front of the queue keeps the list in order. -/
theorem step (hu : Underway successors blocked seeds (t :: rest.map Prod.fst) progress)
    (h : Nearest successors blocked seeds ((t, depth) :: rest) progress) :
    Nearest successors blocked seeds (rest ++ progress.found successors t depth)
      (progress.next track successors t depth) := by
  constructor
  case ascending =>
    rw [Progress.entries_next]
    refine List.pairwise_append.2 ⟨h.ascending, ?_, fun e he f hf ↦ ?_⟩
    · exact List.pairwise_map.2 (List.pairwise_of_forall fun _ _ ↦ Nat.le_refl (depth + 1))
    · rw [(Progress.mem_found.1 hf).2.2]
      exact h.le_succ_of_mem_entries e he
  case close =>
    intro e he f hf
    exact Nat.le_trans (h.depth_of_mem_queue e he).2
      (Nat.succ_le_succ (h.depth_of_mem_queue f hf).1)
  case path =>
    rw [Progress.entries_next]
    intro e he
    rcases List.mem_append.1 he with hold | hfound
    · exact h.path e hold
    · obtain ⟨hedge, hfresh, hdepth⟩ := Progress.mem_found.1 hfound
      have hfront := h.path (t, depth) (List.mem_append_right _ List.mem_cons_self)
      rw [hdepth]
      exact hfront.tail ⟨hedge, fun hb ↦ hfresh ((hu.mem_visited_iff _).2 (.inl hb))⟩
  case seeded =>
    rw [Progress.entries_next]
    exact fun s hs ↦ List.mem_append_left _ (h.seeded s hs)
  case near =>
    rw [Progress.entries_next, Progress.past_next]
    intro now hnow u hfree
    rcases List.mem_cons.1 hnow with rfl | hpast
    · exact h.exists_entry_of_free hu hfree
    · obtain ⟨d, hd, hmem⟩ := h.near now hpast u hfree
      exact ⟨d, hd, List.mem_append_left _ hmem⟩

/-- When nothing waits any more, no path is shorter than a visit is deep. -/
theorem exists_le_of_pathFrom (h : Nearest successors blocked seeds [] progress) {n : Nat}
    (hpath : PathFrom (· ∈ seeds) (Free successors blocked) n t) :
    ∃ now ∈ progress.past, now.type = t ∧ now.depth ≤ n := by
  have hvisited : ∀ u d, (u, d) ∈ progress.entries [] →
      ∃ now ∈ progress.past, now.type = u ∧ now.depth = d := by
    intro u d hmem
    simpa [Progress.entries] using hmem
  induction hpath with
  | here hs =>
    obtain ⟨now, hnow, htype, hdepth⟩ := hvisited _ _ (h.seeded _ hs)
    exact ⟨now, hnow, htype, Nat.le_of_eq hdepth⟩
  | tail _ edge ih =>
    obtain ⟨before, hbefore, rfl, hle⟩ := ih
    obtain ⟨d, hd, hmem⟩ := h.near before hbefore _ edge
    obtain ⟨now, hnow, htype, rfl⟩ := hvisited _ _ hmem
    exact ⟨now, hnow, htype, Nat.le_trans hd (Nat.succ_le_succ hle)⟩

/-- **The depth of a visit is the length of a shortest path.** -/
theorem isLeast_depth (h : Nearest successors blocked seeds [] progress)
    (hnodup : (progress.past.map Visit.type).Nodup) {now : Visit} (hnow : now ∈ progress.past) :
    IsLeast {n | PathFrom (· ∈ seeds) (Free successors blocked) n now.type} now.depth := by
  constructor
  · refine h.path (now.type, now.depth) ?_
    rw [Progress.entries, List.append_nil]
    exact List.mem_map_of_mem (List.mem_reverse.2 hnow)
  · intro n hpath
    obtain ⟨other, hother, htype, hle⟩ := h.exists_le_of_pathFrom hpath
    -- no type is visited twice
    obtain rfl : other = now := List.inj_on_of_nodup_map hnodup hother hnow htype
    exact hle

/-- Depths never go down from one visit to a later one. -/
theorem pairwise_depth (h : Nearest successors blocked seeds [] progress) :
    progress.past.reverse.Pairwise fun now later ↦ now.depth ≤ later.depth := by
  have hascending := h.ascending
  rw [Progress.entries, List.append_nil, List.pairwise_map] at hascending
  exact hascending

end Nearest

end Walk

end Taxonomy
