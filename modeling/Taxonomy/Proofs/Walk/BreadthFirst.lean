import Mathlib.Logic.Relation
import Mathlib.Tactic.Tauto
import Taxonomy.Walk.Basic

/-!
# What a breadth-first walk visits

A breadth-first walk that is not halted visits each *admitted* type once and no other: the types
that a path of successors leads to from a seed without entering a type that was visited before the
walk began (`mem_order_breadthFirst`).

## The invariant

While the walk is under way some types have been visited and others wait in the queue. `Underway`
says of the two together that they are distinct, admitted and marked, and that nothing but the
successors of waiting types is still to be found. A step keeps this (`Underway.step`). Distinct
admitted types are few, so the queue runs out before the fuel does.

## Halting

A visitor never changes where a walk goes, it only ends it. `result_breadthFirst` therefore finds
its answer in the visits of the walk that goes on to the end, and `visits_breadthFirst` finds in
them what the visitor has seen by then.
-/

open Relation

namespace Taxonomy

/-- The first answer that a visitor gives to visits made one after another, after those of `past`,
which come latest first. -/
def Visitor.firstAnswer? {ρ : Type} (visitor : Visitor ρ) : List Visit → List Visit → Option ρ
  | _, [] => none
  | past, now :: later => (visitor past now).or (visitor.firstAnswer? (now :: past) later)

/-- What a visitor sees of visits made one after another, after those of `past`: it has seen enough
with the first that it answers. -/
def Visitor.seen {ρ : Type} (visitor : Visitor ρ) : List Visit → List Visit → List Visit
  | _, [] => []
  | past, now :: later =>
    now :: if (visitor past now).isSome then [] else visitor.seen (now :: past) later

namespace Walk

variable {ρ : Type} {successors : Ty → FinSet Ty} {blocked : FinSet Ty} {seeds : List Ty}

/-- The types that a path from a seed leads to without entering a `blocked` type. -/
def Admitted (successors : Ty → FinSet Ty) (blocked : FinSet Ty) (seeds : List Ty) (t : Ty) :
    Prop :=
  ∃ s ∈ seeds, ReflTransGen (fun a b ↦ b ∈ successors a ∧ b ∉ blocked) s t

/-- No more than `n` types are admitted. -/
def AdmitsAtMost (successors : Ty → FinSet Ty) (blocked : FinSet Ty) (seeds : List Ty) (n : Nat) :
    Prop :=
  ∀ l : List Ty, l.Nodup → (∀ t ∈ l, Admitted successors blocked seeds t) → l.length ≤ n

theorem mem_order_finish {progress : Progress} {result : Option ρ} {strata : List (List Ty)}
    {t : Ty} : t ∈ (progress.finish result strata).order ↔ t ∈ progress.past.map Visit.type := by
  rw [order, Progress.finish, List.map_reverse, List.mem_reverse]

namespace Progress

/-- The types visited so far, latest first, and those that wait. -/
def known (progress : Progress) (waiting : List Ty) : List Ty :=
  progress.past.map Visit.type ++ waiting

@[simp] theorem past_record (track : Bool) (progress : Progress) (t : Ty) (next : FinSet Ty) :
    (progress.record track t next).past = progress.past := by
  cases track <;> rfl

@[simp] theorem visited_record (track : Bool) (progress : Progress) (t : Ty) (next : FinSet Ty) :
    (progress.record track t next).visited = progress.visited := by
  cases track <;> rfl

/-- The progress that follows the visit of a type: its successors are recorded and marked. -/
def next (track : Bool) (successors : Ty → FinSet Ty) (progress : Progress) (t : Ty) (depth : Nat) :
    Progress :=
  (((progress.push (progress.visit track t depth)).record track t (successors t)).mark
    ((successors t).toList.filter (· ∉ progress.visited)))

/-- What a visit finds: the successors that are not marked, which are queued one deeper. -/
def found (successors : Ty → FinSet Ty) (progress : Progress) (t : Ty) (depth : Nat) :
    List (Ty × Nat) :=
  ((successors t).toList.filter (· ∉ progress.visited)).map (·, depth + 1)

theorem mem_found {progress : Progress} {t : Ty} {depth : Nat} {e : Ty × Nat} :
    e ∈ progress.found successors t depth ↔
      e.1 ∈ successors t ∧ e.1 ∉ progress.visited ∧ e.2 = depth + 1 := by
  obtain ⟨u, d⟩ := e
  simp only [found, List.mem_map, List.mem_filter, FinSet.mem_toList, decide_eq_true_eq,
    Prod.mk.injEq]
  constructor
  · rintro ⟨u, ⟨hedge, hfresh⟩, rfl, rfl⟩
    exact ⟨hedge, hfresh, rfl⟩
  · rintro ⟨hedge, hfresh, rfl⟩
    exact ⟨u, ⟨hedge, hfresh⟩, rfl, rfl⟩

@[simp] theorem past_next (track : Bool) (progress : Progress) (t : Ty) (depth : Nat) :
    (progress.next track successors t depth).past =
      progress.visit track t depth :: progress.past := by
  rw [next, mark, past_record]
  rfl

@[simp] theorem mem_visited_next {track : Bool} {progress : Progress} {t u : Ty} {depth : Nat} :
    u ∈ (progress.next track successors t depth).visited ↔
      u ∈ progress.visited ∨ u ∈ successors t := by
  rw [next, mark, FinSet.mem_insertAll, visited_record, List.mem_filter, FinSet.mem_toList]
  change u ∈ progress.visited ∨ _ ↔ _
  by_cases h : u ∈ progress.visited <;> simp [h]

end Progress

/-! ## One step of the walk -/

section Step

variable {track : Bool} {visitor : Visitor ρ} {fuel : Nat} {queue rest : Queue (Ty × Nat)}
  {progress : Progress} {t : Ty} {depth : Nat}

/-- The walk ends when nothing waits. -/
theorem breadthFirst_of_pop?_eq_none (hq : queue.pop? = none) :
    breadthFirst successors track visitor fuel queue progress = progress.finish none [] := by
  cases fuel with
  | zero => rfl
  | succ fuel => rw [breadthFirst, hq]

/-- Otherwise it visits the type in front, where the visitor may halt it. -/
theorem breadthFirst_of_pop?_eq_some (hq : queue.pop? = some ((t, depth), rest)) :
    breadthFirst successors track visitor (fuel + 1) queue progress =
      match visitor progress.past (progress.visit track t depth) with
      | some result => (progress.push (progress.visit track t depth)).finish (some result) []
      | none => breadthFirst successors track visitor fuel
          (rest.pushAll (progress.found successors t depth))
          (progress.next track successors t depth) := by
  rw [breadthFirst, hq]
  rfl

end Step

/-! ## The invariant of the walk -/

/-- A walk is under way from `seeds`, with the types of `waiting` still in the queue. -/
structure Underway (successors : Ty → FinSet Ty) (blocked : FinSet Ty) (seeds waiting : List Ty)
    (progress : Progress) : Prop where
  /-- No type is visited or queued twice. -/
  nodup : (progress.known waiting).Nodup
  /-- What counts as visited is known, or was visited before the walk. -/
  mem_visited_iff : ∀ t, t ∈ progress.visited ↔ t ∈ blocked ∨ t ∈ progress.known waiting
  /-- The walk has kept to admitted types. -/
  admitted : ∀ t ∈ progress.known waiting, Admitted successors blocked seeds t
  /-- No seed has been lost. -/
  seeded : ∀ s ∈ seeds, s ∈ progress.known waiting
  /-- The successors of what was visited have been found. -/
  closed : ∀ t ∈ progress.past.map Visit.type, ∀ u ∈ successors t, u ∈ progress.visited

namespace Underway

/-- The walk begins with its seeds in the queue. -/
theorem initial (hseeds : seeds.Nodup) :
    Underway successors blocked seeds seeds ⟨[], blocked.insertAll seeds, ∅⟩ where
  nodup := hseeds
  mem_visited_iff _ := FinSet.mem_insertAll
  admitted t ht := ⟨t, ht, .refl⟩
  seeded _ hs := hs
  closed _ ht := absurd ht List.not_mem_nil

/-- So it does when they are queued at depth zero. -/
theorem initial_queue (hseeds : seeds.Nodup) :
    Underway successors blocked seeds ((Queue.ofList (seeds.map (·, 0))).toList.map Prod.fst)
      ⟨[], blocked.insertAll seeds, ∅⟩ := by
  rw [Queue.toList_ofList, List.map_map]
  simpa [Function.comp_def] using initial hseeds

/-- Visiting the type in front keeps the walk under way. -/
theorem step {track : Bool} {t : Ty} {depth : Nat} {rest : List Ty} {progress : Progress}
    (h : Underway successors blocked seeds (t :: rest) progress) :
    Underway successors blocked seeds
      (rest ++ (successors t).toList.filter (· ∉ progress.visited))
      (progress.next track successors t depth) := by
  -- what is known grows by the successors that were not marked; `t` only changes sides
  have hknown : ∀ u, u ∈ (progress.next track successors t depth).known
      (rest ++ (successors t).toList.filter (· ∉ progress.visited)) ↔
        u ∈ progress.known (t :: rest) ∨ u ∈ successors t ∧ u ∉ progress.visited := by
    intro u
    simp only [Progress.known, Progress.past_next, Progress.visit, List.map_cons, List.mem_append,
      List.mem_cons, List.mem_filter, FinSet.mem_toList, decide_eq_true_eq]
    tauto
  refine ⟨?_, ?_, ?_, fun s hs ↦ (hknown s).2 (.inl (h.seeded s hs)), ?_⟩
  · have hperm : ((progress.next track successors t depth).known
        (rest ++ (successors t).toList.filter (· ∉ progress.visited))).Perm
          (progress.known (t :: rest) ++ (successors t).toList.filter (· ∉ progress.visited)) := by
      simp only [Progress.known, Progress.past_next, Progress.visit, List.map_cons,
        List.append_assoc, List.cons_append]
      exact List.perm_middle.symm
    refine hperm.nodup_iff.2 (List.nodup_append.2 ⟨h.nodup, (successors t).nodup.filter _, ?_⟩)
    rintro u hu v hfresh rfl
    have hnot : u ∉ progress.visited := by simpa using (List.mem_filter.1 hfresh).2
    exact hnot ((h.mem_visited_iff u).2 (.inr hu))
  · intro u
    rw [Progress.mem_visited_next, hknown, h.mem_visited_iff]
    tauto
  · intro u hu
    rcases (hknown u).1 hu with hold | ⟨hnew, hnot⟩
    · exact h.admitted u hold
    · obtain ⟨s, hs, hpath⟩ := h.admitted t (List.mem_append_right _ List.mem_cons_self)
      exact ⟨s, hs, hpath.tail ⟨hnew, fun hb ↦ hnot ((h.mem_visited_iff u).2 (.inl hb))⟩⟩
  · intro v hv u hu
    rw [Progress.past_next, List.map_cons, List.mem_cons] at hv
    rw [Progress.mem_visited_next]
    rcases hv with rfl | hv
    · exact .inr hu
    · exact .inl (h.closed v hv u hu)

/-- The types that are found wait with the rest. -/
theorem step_pushAll {track : Bool} {t : Ty} {depth : Nat} {rest : Queue (Ty × Nat)}
    {progress : Progress}
    (h : Underway successors blocked seeds (t :: rest.toList.map Prod.fst) progress) :
    Underway successors blocked seeds
      ((rest.pushAll (progress.found successors t depth)).toList.map Prod.fst)
      (progress.next track successors t depth) := by
  rw [Queue.toList_pushAll, List.map_append, Progress.found, List.map_map]
  simpa [Function.comp_def] using h.step

/-- What has been visited and what waits are distinct admitted types. -/
theorem length_le {waiting : List Ty} {progress : Progress} {n : Nat}
    (h : Underway successors blocked seeds waiting progress)
    (hn : AdmitsAtMost successors blocked seeds n) :
    progress.past.length + waiting.length ≤ n := by
  have hlength := hn _ h.nodup h.admitted
  rwa [Progress.known, List.length_append, List.length_map] at hlength

/-- When nothing waits any more, exactly the admitted types have been visited. -/
theorem mem_past_iff {progress : Progress} (h : Underway successors blocked seeds [] progress)
    (t : Ty) : t ∈ progress.past.map Visit.type ↔ Admitted successors blocked seeds t := by
  have hpast : progress.known [] = progress.past.map Visit.type := List.append_nil _
  refine ⟨fun ht ↦ h.admitted t (hpast ▸ ht), ?_⟩
  rintro ⟨s, hs, hpath⟩
  -- along the path each type has been visited, as what was visited is closed under successors
  induction hpath with
  | refl => exact hpast ▸ h.seeded s hs
  | @tail u v _ huv ih =>
    rcases (h.mem_visited_iff v).1 (h.closed u ih v huv.1) with hb | hknown
    · exact absurd hb huv.2
    · exact hpast ▸ hknown

theorem nodup_past {progress : Progress} (h : Underway successors blocked seeds [] progress) :
    (progress.past.map Visit.type).Nodup := by
  have hknown := h.nodup
  rwa [Progress.known, List.append_nil] at hknown

theorem nodup_order {progress : Progress} (h : Underway successors blocked seeds [] progress)
    (result : Option ρ) (strata : List (List Ty)) :
    (progress.finish result strata).order.Nodup := by
  rw [order, Progress.finish, List.map_reverse]
  exact (List.reverse_perm _).nodup_iff.2 h.nodup_past

end Underway

/-! ## Walking to the end -/

/-- What each step keeps holds when the queue runs out, which it does if there is fuel for all
admitted types. -/
theorem exists_last_of_step {track : Bool} {P : List (Ty × Nat) → Progress → Prop}
    (hstep : ∀ t depth rest progress,
      Underway successors blocked seeds (t :: rest.map Prod.fst) progress →
      P ((t, depth) :: rest) progress →
      P (rest ++ progress.found successors t depth) (progress.next track successors t depth))
    {fuel : Nat} {queue : Queue (Ty × Nat)} {progress : Progress}
    (h : Underway successors blocked seeds (queue.toList.map Prod.fst) progress)
    (hP : P queue.toList progress)
    (hfuel : AdmitsAtMost successors blocked seeds (fuel + progress.past.length)) :
    ∃ last, Underway successors blocked seeds [] last ∧ P [] last ∧
      breadthFirst successors track Visitor.never fuel queue progress = last.finish none [] := by
  induction fuel generalizing queue progress with
  | zero =>
    -- as many types have been visited as are admitted, so none can be waiting
    have hlength := h.length_le hfuel
    have hnil : queue.toList = [] := by
      rw [List.length_map] at hlength
      exact List.eq_nil_of_length_eq_zero (by omega)
    rw [hnil] at h hP
    exact ⟨progress, h, hP, rfl⟩
  | succ fuel ih =>
    cases hq : queue.pop? with
    | none =>
      rw [Queue.pop?_eq_none_iff.1 hq] at h hP
      exact ⟨progress, h, hP, breadthFirst_of_pop?_eq_none hq⟩
    | some popped =>
      obtain ⟨⟨t, depth⟩, rest⟩ := popped
      rw [Queue.toList_of_pop? hq] at h hP
      rw [List.map_cons] at h
      rw [breadthFirst_of_pop?_eq_some hq]
      refine @ih _ (progress.next track successors t depth) h.step_pushAll ?_ ?_
      · rw [Queue.toList_pushAll]
        exact hstep t depth rest.toList progress h hP
      · rwa [Progress.past_next, List.length_cons, Nat.add_comm progress.past.length, ← Nat.add_assoc]

variable {track : Bool} {fuel : Nat}

/-- The breadth-first walk from seeds that waits for no visitor, with what its steps keep. -/
theorem exists_finish_of_step {P : List (Ty × Nat) → Progress → Prop} (hseeds : seeds.Nodup)
    (hinitial : P (seeds.map (·, 0)) ⟨[], blocked.insertAll seeds, ∅⟩)
    (hstep : ∀ t depth rest progress,
      Underway successors blocked seeds (t :: rest.map Prod.fst) progress →
      P ((t, depth) :: rest) progress →
      P (rest ++ progress.found successors t depth) (progress.next track successors t depth))
    (hfuel : AdmitsAtMost successors blocked seeds fuel) :
    ∃ last, Underway successors blocked seeds [] last ∧ P [] last ∧
      breadthFirst successors track Visitor.never fuel (Queue.ofList (seeds.map (·, 0)))
        ⟨[], blocked.insertAll seeds, ∅⟩ = last.finish none [] :=
  exists_last_of_step hstep (.initial_queue hseeds) (by rwa [Queue.toList_ofList]) hfuel

/-- **A breadth-first walk visits what is admitted.** -/
theorem mem_order_breadthFirst (hseeds : seeds.Nodup)
    (hfuel : AdmitsAtMost successors blocked seeds fuel) {t : Ty} :
    t ∈ (breadthFirst successors track Visitor.never fuel (Queue.ofList (seeds.map (·, 0)))
      ⟨[], blocked.insertAll seeds, ∅⟩).order ↔ Admitted successors blocked seeds t := by
  obtain ⟨last, hlast, -, heq⟩ := exists_finish_of_step (P := fun _ _ ↦ True) hseeds trivial
    (fun _ _ _ _ _ _ ↦ trivial) hfuel
  rw [heq, mem_order_finish, hlast.mem_past_iff]

/-! ## Halting -/

/-- A walk that is only watched is not halted. -/
theorem result_eq_none (walk : Walk Empty) : walk.result = none :=
  Option.eq_none_iff_forall_ne_some.2 fun result ↦ nomatch result

variable (ρ successors track fuel) in
/-- What a visitor sees and answers are visits of the walk that is not halted. -/
theorem exists_visits_breadthFirst (queue : Queue (Ty × Nat)) (progress : Progress) :
    ∃ later,
      (breadthFirst successors track Visitor.never fuel queue progress).visits =
        progress.past.reverse ++ later ∧
      ∀ visitor : Visitor ρ,
        (breadthFirst successors track visitor fuel queue progress).result =
          visitor.firstAnswer? progress.past later ∧
        (breadthFirst successors track visitor fuel queue progress).visits =
          progress.past.reverse ++ visitor.seen progress.past later := by
  induction fuel generalizing queue progress with
  | zero =>
    refine ⟨[], (List.append_nil _).symm, fun visitor ↦ ⟨rfl, ?_⟩⟩
    exact (List.append_nil _).symm
  | succ fuel ih =>
    cases hq : queue.pop? with
    | none =>
      refine ⟨[], ?_, fun visitor ↦ ?_⟩
      · rw [breadthFirst_of_pop?_eq_none hq]
        exact (List.append_nil _).symm
      · rw [breadthFirst_of_pop?_eq_none hq]
        exact ⟨rfl, (List.append_nil _).symm⟩
    | some popped =>
      obtain ⟨⟨t, depth⟩, rest⟩ := popped
      obtain ⟨later, hvisits, hvisitor⟩ := ih (rest.pushAll (progress.found successors t depth))
        (progress.next track successors t depth)
      refine ⟨progress.visit track t depth :: later, ?_, fun visitor ↦ ?_⟩
      · rw [breadthFirst_of_pop?_eq_some hq]
        refine hvisits.trans ?_
        rw [Progress.past_next, List.reverse_cons, List.append_assoc, List.singleton_append]
      · rw [breadthFirst_of_pop?_eq_some hq, Visitor.firstAnswer?, Visitor.seen]
        -- a visitor that answers halts the walk here, whatever would have come later
        cases hanswer : visitor progress.past (progress.visit track t depth) with
        | some result => exact ⟨rfl, List.reverse_cons⟩
        | none =>
          obtain ⟨hresult, hseen⟩ := hvisitor visitor
          rw [Progress.past_next] at hresult hseen
          refine ⟨hresult, hseen.trans ?_⟩
          rw [List.reverse_cons, List.append_assoc, List.singleton_append]
          rfl

/-- A walk from its beginning comes to the first answer to the visits of the walk that is not
halted. -/
theorem result_breadthFirst (visitor : Visitor ρ) (queue : Queue (Ty × Nat)) (visited : FinSet Ty) :
    (breadthFirst successors track visitor fuel queue ⟨[], visited, ∅⟩).result =
      visitor.firstAnswer? []
        (breadthFirst successors track Visitor.never fuel queue ⟨[], visited, ∅⟩).visits := by
  obtain ⟨later, hvisits, hvisitor⟩ := exists_visits_breadthFirst ρ successors track fuel queue
    ⟨[], visited, ∅⟩
  rw [(hvisitor visitor).1, hvisits]
  rfl

/-- Until then it is the walk that is not halted. -/
theorem visits_breadthFirst (visitor : Visitor ρ) (queue : Queue (Ty × Nat)) (visited : FinSet Ty) :
    (breadthFirst successors track visitor fuel queue ⟨[], visited, ∅⟩).visits =
      visitor.seen []
        (breadthFirst successors track Visitor.never fuel queue ⟨[], visited, ∅⟩).visits := by
  obtain ⟨later, hvisits, hvisitor⟩ := exists_visits_breadthFirst ρ successors track fuel queue
    ⟨[], visited, ∅⟩
  rw [(hvisitor visitor).2, hvisits]
  rfl

/-- Nothing of a walk under way is lost when it ends. -/
theorem Progress.eq_of_finish_eq {progress progress' : Progress} {result : Option ρ}
    {strata : List (List Ty)} (h : progress.finish result strata = progress'.finish result strata) :
    progress = progress' := by
  rw [finish, finish, Walk.mk.injEq, List.reverse_inj] at h
  obtain ⟨-, hpast, -, hpredecessors, hvisited⟩ := h
  cases progress
  cases progress'
  rw [mk.injEq]
  exact ⟨hpast, hvisited, hpredecessors⟩

/-- A visitor that does not halt the walk makes no difference to it. -/
theorem breadthFirst_eq_finish {visitor : Visitor ρ} {queue : Queue (Ty × Nat)}
    {progress last : Progress}
    (hunhalted : (breadthFirst successors track visitor fuel queue progress).halted = false)
    (hnever : breadthFirst successors track Visitor.never fuel queue progress =
      last.finish none []) :
    breadthFirst successors track visitor fuel queue progress = last.finish none [] := by
  induction fuel generalizing queue progress with
  | zero => rw [breadthFirst, Progress.eq_of_finish_eq hnever]
  | succ fuel ih =>
    cases hq : queue.pop? with
    | none =>
      rw [breadthFirst_of_pop?_eq_none hq] at hnever ⊢
      rw [Progress.eq_of_finish_eq hnever]
    | some popped =>
      obtain ⟨⟨t, depth⟩, rest⟩ := popped
      rw [breadthFirst_of_pop?_eq_some hq] at hunhalted hnever ⊢
      cases hanswer : visitor progress.past (progress.visit track t depth) with
      | some result =>
        rw [hanswer] at hunhalted
        cases hunhalted
      | none =>
        rw [hanswer] at hunhalted
        exact ih hunhalted hnever

end Walk

end Taxonomy
