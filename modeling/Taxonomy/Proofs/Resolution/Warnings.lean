import Taxonomy.Proofs.Representation.Ambiguity
import Taxonomy.Proofs.Representation.Course
import Taxonomy.Proofs.Resolution.Fold
import Taxonomy.Proofs.Resolution.Hearing
import Taxonomy.Report.Record

/-!
# Warnings of ambiguous folds

A fold goes from one only bound to the next (`Hierarchy.Passes`). At the first step with no bound or
with several it stops, and with several it warns. It stops there, so it warns once; whether it warns
at all hangs on the one step at which it stops, and what the step is about on all steps before.

Nothing else that happens during a fold is a warning. Looking up may make rows or drop a memo, which
is reported for those who debug or trace, and hooks are asked for bounds without any report
(`Journaled.Quiet`). So the warnings written during a fold are found by going along the operands
(`Representation.Faithful.warnings_foldBounds_cons`), and they do not depend on how the hierarchy is
represented, though what else is written does.
-/

namespace Taxonomy

variable {α β : Type} {h : Hierarchy} {r : Representation} {setting : Setting} {limit : Nat}
  {b : Bound}

/-! ## Warnings -/

namespace Setting

/-- The record of a notice. -/
def record (setting : Setting) (notice : Notice) : Record :=
  .ofNotice setting.config.spelling (fun id ↦ (setting.hooks id).description) notice

/-- The warnings of an operation that are written under a limit. -/
def warnings (setting : Setting) (limit : Nat) (x : Journaled α) : List Record :=
  (x.notices.map setting.record).filter fun record ↦ record.level = .warn && record.passes limit

theorem warnings_bind (x : Journaled α) (f : α → Journaled β) : setting.warnings limit (x >>= f) =
    setting.warnings limit x ++ setting.warnings limit (f x.value) := by
  rw [warnings, Journaled.notices_bind, List.map_append, List.filter_append]
  rfl

/-- A report of warnings is written if the limit is no less than their thresholds. -/
theorem warnings_reportAll {notices : List Notice}
    (hall : ∀ notice ∈ notices, notice.level = .warn ∧ notice.threshold ≤ limit) :
    setting.warnings limit (Journaled.reportAll notices) = notices.map setting.record := by
  have hnotices : (Journaled.reportAll notices).notices = notices := by
    simp [Journaled.reportAll, Journaled.notices, List.filterMap_map]
  rw [warnings, hnotices, List.filter_eq_self, List.forall_mem_map]
  intro notice hnotice
  simp [record, Record.ofNotice, Record.passes, hall notice hnotice]

end Setting

namespace Journaled

variable {x : Journaled α} {f : α → Journaled β}

/-- Nothing is warned of. -/
def Quiet (x : Journaled α) : Prop := ∀ notice ∈ x.notices, notice.level ≠ .warn

theorem mem_notices_iff {notice : Notice} : notice ∈ x.notices ↔ .noticed notice ∈ x.events := by
  rw [notices, List.mem_filterMap]
  constructor
  · rintro ⟨event, hevent, heq⟩
    cases event with
    | noticed => exact Option.some_inj.1 heq ▸ hevent
    | asked => cases heq
  · exact fun hevent ↦ ⟨_, hevent, rfl⟩

namespace Quiet

theorem of_notices_eq_nil (hx : x.notices = []) : x.Quiet := fun notice hnotice ↦ by
  rw [hx] at hnotice
  cases hnotice

theorem pure (a : α) : Quiet (Pure.pure a) := .of_notices_eq_nil rfl

theorem bind (hx : x.Quiet) (hf : (f x.value).Quiet) : (x >>= f).Quiet := by
  intro notice hnotice
  rw [notices_bind] at hnotice
  exact (List.mem_append.1 hnotice).elim (hx notice) (hf notice)

theorem warnings_eq_nil (hx : x.Quiet) : setting.warnings limit x = [] := by
  rw [Setting.warnings, List.filter_eq_nil_iff, List.forall_mem_map]
  intro notice hnotice
  simp [Setting.record, Record.ofNotice, hx notice hnotice]

end Quiet

theorem Upkeep.quiet (hx : x.Upkeep) : x.Quiet := by
  intro notice hnotice hlevel
  have hupkeep := hx _ (mem_notices_iff.1 hnotice)
  cases notice with
  | compiled | memoDropped => cases hlevel
  | _ => cases hupkeep

end Journaled

/-! ## Steps of folds -/

/-- What is reported of an ambiguous step are warnings that every limit but zero lets pass. -/
theorem Verbosity.warns_of_ambiguity {verbosity : Verbosity} {v : Ty} {x : Operand}
    {context : FoldContext} : ∀ notice ∈ verbosity.ambiguity b v x context,
      notice.level = .warn ∧ notice.threshold = 1 := by
  cases verbosity <;> simp [ambiguity, Notice.level, Notice.threshold]

theorem Setting.notices_ask (o : Operation) (other x : Operand) :
    (setting.ask o other x).notices = [] := by
  cases x <;> rfl

theorem Setting.notices_decideBounds (x y : Operand) :
    (setting.decideBounds b x y).notices = [] := by
  rw [decideBounds]
  split
  · rfl
  · rw [consult]
    split
    · rfl
    · rw [Journaled.notices_bind, notices_ask, List.nil_append]
      split
      · rfl
      · rw [Journaled.notices_bind, notices_ask]
        rfl

namespace Hierarchy

theorem quiet_run_bounds (r : Representation) (s t : Ty) :
    ((Inquiry.bounds b s t .done).run r).Quiet :=
  ((r.upkeep_lookUpBounds b s t).bind (.pure _)).quiet

/-- Bounds of operands are found without a warning. -/
theorem quiet_resolveBounds (r : Representation) (x y : Operand) :
    ((h.resolveBounds setting b x y).run r).Quiet := by
  change (((Inquiry.ofJournaled (setting.decideBounds b x y)).andThen _).run r).Quiet
  rw [Inquiry.andThen_ofJournaled, Inquiry.run_noteAll]
  refine .bind (.of_notices_eq_nil (setting.notices_decideBounds x y)) ?_
  split
  · exact .pure _
  · split
    · split
      · exact quiet_run_bounds r _ _
      · exact .pure _
    · exact .pure _

theorem quiet_memberStep (r : Representation) (v : Ty) (x : Operand) :
    ((memberStep b v x).run r).Quiet := by
  cases x with
  | hook id => exact .pure _
  | type t =>
    rw [memberStep]
    split
    · exact .pure _
    · exact quiet_run_bounds r v t

/-! ## Folds -/

/-- The operands between two values of a fold: each step has one bound. -/
inductive Passes (h : Hierarchy) (step : Ty → Operand → Inquiry (List Ty)) :
    Ty → List Operand → Ty → Prop
  | nil (v : Ty) : Passes h step v [] v
  | cons {v w u : Ty} {x : Operand} {rest : List Operand} (honly : (step v x).answer h = [w])
      (hrest : Passes h step w rest u) : Passes h step v (x :: rest) u

end Hierarchy

section Folds

variable {verbosity : Verbosity} {step : Ty → Operand → Inquiry (List Ty)} {v w : Ty} {x : Operand}
  {all before after l : List Operand}

/-- A fold over operands that it steps over comes to the last bound. -/
theorem Hierarchy.Passes.answer_foldBounds (hp : h.Passes step v before w) :
    (foldBounds verbosity b step all v before).answer h = w := by
  induction hp with
  | nil v => rfl
  | cons honly _ ih =>
    rw [answer_foldBounds_cons, honly]
    exact ih

namespace Representation.Faithful

/-- What a step of a fold leads to: a fold that stops for want of a bound does not warn, with one
bound it leaves the warnings to what comes later, and with several bounds it warns of them. -/
theorem warnings_foldBounds_cons (hf : r.Faithful h) (hlimit : 1 ≤ limit)
    (hquiet : ((step v x).run r).Quiet) :
    let written := setting.warnings limit
      ((Hierarchy.foldBounds verbosity b step all v (x :: l)).run r)
    let found := (step v x).answer h
    (found = [] → written = []) ∧
    (∀ bound, found = [bound] → ∃ r', r'.Faithful h ∧ written =
      setting.warnings limit ((Hierarchy.foldBounds verbosity b step all bound l).run r')) ∧
    (1 < found.length → written = (verbosity.ambiguity b v x ⟨found, all⟩).map setting.record) := by
  obtain ⟨hfound, hlater⟩ := hf.run (step v x)
  rw [Hierarchy.foldBounds, Inquiry.bind_eq, Inquiry.run_andThen, setting.warnings_bind,
    hquiet.warnings_eq_nil, List.nil_append, ← hfound]
  generalize ((step v x).run r).value = last at hlater ⊢
  obtain ⟨found, r'⟩ := last
  refine ⟨?_, ?_, fun hseveral ↦ ?_⟩
  · rintro rfl
    rfl
  · rintro bound rfl
    exact ⟨r', hlater, rfl⟩
  · rcases found with _ | ⟨s, _ | ⟨t, others⟩⟩
    · simp at hseveral
    · simp at hseveral
    · change setting.warnings limit (((Inquiry.ofJournaled (Journaled.reportAll
        (verbosity.ambiguity b v x ⟨s :: t :: others, all⟩))).andThen fun _ ↦ _).run r') = _
      rw [Inquiry.andThen_ofJournaled, Inquiry.run_noteAll, setting.warnings_bind]
      refine (List.append_nil _).trans (setting.warnings_reportAll fun notice hnotice ↦ ?_)
      obtain ⟨hlevel, hthreshold⟩ := Verbosity.warns_of_ambiguity notice hnotice
      exact ⟨hlevel, hthreshold ▸ hlimit⟩

/-- A fold warns of the ambiguous step that it comes to. -/
theorem warnings_of_passes (hf : r.Faithful h) (hlimit : 1 ≤ limit)
    (hquiet : ∀ r v x, ((step v x).run r).Quiet) (hp : h.Passes step v before w)
    (hseveral : 1 < ((step w x).answer h).length) :
    setting.warnings limit
        ((Hierarchy.foldBounds verbosity b step all v (before ++ x :: after)).run r) =
      (verbosity.ambiguity b w x ⟨(step w x).answer h, all⟩).map setting.record := by
  induction hp generalizing r with
  | nil v =>
    obtain ⟨-, -, hwarned⟩ := hf.warnings_foldBounds_cons hlimit (hquiet r v x)
    exact hwarned hseveral
  | @cons v w _ y _ honly _ ih =>
    obtain ⟨-, hpassed, -⟩ := hf.warnings_foldBounds_cons hlimit (hquiet r v y)
    obtain ⟨r', hlater, heq⟩ := hpassed w honly
    exact heq.trans (ih hlater hseveral)

/-- A fold that comes to no ambiguous step does not warn. -/
theorem warnings_eq_nil (hf : r.Faithful h) (hlimit : 1 ≤ limit)
    (hquiet : ∀ r v x, ((step v x).run r).Quiet)
    (hnone : ∀ before x after w, l = before ++ x :: after → h.Passes step v before w →
      ((step w x).answer h).length ≤ 1) :
    setting.warnings limit ((Hierarchy.foldBounds verbosity b step all v l).run r) = [] := by
  induction l generalizing r v with
  | nil => rfl
  | cons x rest ih =>
    obtain ⟨hstopped, hpassed, -⟩ := hf.warnings_foldBounds_cons hlimit (hquiet r v x)
    have hfirst := hnone [] x rest v rfl (.nil v)
    rcases Nat.le_one_iff_eq_zero_or_eq_one.1 hfirst with hzero | hone
    · exact hstopped (List.eq_nil_of_length_eq_zero hzero)
    · obtain ⟨bound, honly⟩ := List.length_eq_one_iff.1 hone
      obtain ⟨r', hlater, heq⟩ := hpassed bound honly
      refine heq.trans (ih hlater fun before y after w hsplit hp ↦ ?_)
      exact hnone (x :: before) y after w (congrArg (x :: ·) hsplit) (.cons honly hp)

end Representation.Faithful

end Folds

/-! ## Folds of operands and of types -/

/-- In front of `r`, a fold warns of the first ambiguous step and of nothing else. The fold is over
things of some kind, each of which is an operand, and takes the steps of `step`. -/
structure Representation.WarnsOfAmbiguity (r : Representation) (h : Hierarchy) (setting : Setting)
    (limit : Nat) (b : Bound) (operand : α → Operand) (step : Ty → Operand → Inquiry (List Ty))
    (fold : List α → Inquiry Ty) : Prop where
  /-- If each step before `x` has one bound, what comes before `x` is folded to some value `v`. If
  `v` and `x` have several bounds, there is one warning, about `v` and `x`, unless the verbosity
  suppresses it. With context it shows all their bounds and all that is folded. -/
  ambiguous : ∀ (before : List α) (x : α) (after : List α) (v : Ty),
    h.Passes step (Reserved.identity b) (before.map operand) v →
    1 < ((step v (operand x)).answer h).length →
      ((fold before).run r).value.1 = v ∧
      setting.warnings limit ((fold (before ++ x :: after)).run r) =
        match setting.config.verbosity with
        | .silent => []
        | .warn => [setting.record (.ambiguous b v (operand x) none)]
        | .context => [setting.record (.ambiguous b v (operand x)
            (some ⟨(step v (operand x)).answer h, (before ++ x :: after).map operand⟩))]
  /-- If there is no such step, there is no warning. -/
  unambiguous : ∀ l : List α,
    (∀ before x after v, l = before ++ x :: after →
      h.Passes step (Reserved.identity b) (before.map operand) v →
        ((step v (operand x)).answer h).length ≤ 1) →
    setting.warnings limit ((fold l).run r) = []

/-- Folds warn of ambiguity if their steps do not warn. -/
theorem Representation.Faithful.warnsOfAmbiguity {step : Ty → Operand → Inquiry (List Ty)}
    (hf : r.Faithful h) (hlimit : 1 ≤ limit) (hquiet : ∀ r v x, ((step v x).run r).Quiet)
    (operand : α → Operand) :
    r.WarnsOfAmbiguity h setting limit b operand step fun l ↦
      Hierarchy.foldBounds setting.config.verbosity b step (l.map operand) (Reserved.identity b)
        (l.map operand) where
  ambiguous before x after v hp hseveral := by
    refine ⟨(hf.run _).1.trans hp.answer_foldBounds, ?_⟩
    rw [List.map_append, List.map_cons, hf.warnings_of_passes hlimit hquiet hp hseveral]
    cases setting.config.verbosity <;> rfl
  unambiguous l hnone := by
    refine hf.warnings_eq_nil hlimit hquiet fun before x after v hsplit hp ↦ ?_
    obtain ⟨before, rest, rfl, rfl, hrest⟩ := List.map_eq_append_iff.1 hsplit
    obtain ⟨x, after, rfl, rfl, rfl⟩ := List.map_eq_cons_iff.1 hrest
    exact hnone before x after v rfl hp

/-- **Folds warn of the first ambiguous step, once, and of nothing else.** However a hierarchy is
represented and whatever hooks there are, a fold of operands or of types leaves one warning if it
comes to a step with several bounds, and none if it stops at a step without a bound, does not stop
at all, or is to be silent. The warning is about what the operands before the step come to and the
operand of the step. -/
theorem Representation.Tracks.folds_warn_of_ambiguity (ht : r.Tracks h) (setting : Setting)
    (b : Bound) (hlimit : 1 ≤ limit) :
    r.WarnsOfAmbiguity h setting limit b id (fun v x ↦ h.resolveBounds setting b (.type v) x)
      (r.hierarchy.fold setting b) ∧
    r.WarnsOfAmbiguity h setting limit b .type (Hierarchy.memberStep b)
      (Hierarchy.foldTypes setting b) := by
  have hf := ht.faithful
  constructor
  · have hfold : r.hierarchy.fold setting b = fun l ↦
        Hierarchy.foldBounds setting.config.verbosity b
          (fun v x ↦ h.resolveBounds setting b (.type v) x) (l.map id) (Reserved.identity b)
          (l.map id) := by
      funext l
      rw [List.map_id, Hierarchy.fold, hf.hierarchy_eq]
    rw [hfold]
    exact hf.warnsOfAmbiguity hlimit (fun r v x ↦ Hierarchy.quiet_resolveBounds r _ x) id
  · exact hf.warnsOfAmbiguity hlimit Hierarchy.quiet_memberStep .type

/-- A hook that answers with `a` takes the join there, and `a` and `b` have two bounds. The join of
types comes to the same pair past an equal type. -/
theorem Representation.folds_warn_of_ambiguity_tangle :
    let r := (compiled { hierarchy := tangle, scope := some (.named "b") }).memoize 1
    let setting : Setting :=
      ⟨{ verbosity := .context }, voices (.relation true) (.bounds [.named "a"])⟩
    let before : List Operand := [.type .undefined, .hook "right"]
    let after : List Operand := [.hook "left", .type .top]
    let found : List Ty := [.named "c", .named "d"]
    Tracks r tangle ∧ 1 ≤ 1 ∧
    tangle.Passes (fun v x ↦ tangle.resolveBounds setting .leastUpper (.type v) x) .undefined
      before (.named "a") ∧
    (tangle.resolveBounds setting .leastUpper (.type (.named "a")) (.type (.named "b"))).answer
      tangle = found ∧
    setting.warnings 1 ((tangle.fold setting .leastUpper
      (before ++ .type (.named "b") :: after)).run r) =
        [setting.record (.ambiguous .leastUpper (.named "a") (.type (.named "b"))
          (some ⟨found, before ++ .type (.named "b") :: after⟩))] ∧
    (setting.record (.ambiguous .leastUpper (.named "a") (.type (.named "b"))
      (some ⟨found, before⟩))).text =
        " WARN least_upper_bounds of a and b is not unique: candidates [c, d] while folding " ++
          "[UNDEFINED, <predicate>]" ∧
    setting.warnings 1 ((Hierarchy.foldTypes setting .leastUpper
      [.named "a", .named "a", .named "b"]).run r) =
        [setting.record (.ambiguous .leastUpper (.named "a") (.type (.named "b"))
          (some ⟨found, [.type (.named "a"), .type (.named "a"), .type (.named "b")]⟩))] := by
  intro r setting before after found
  have htracks : Tracks r tangle := .memoize (.compiled grown_tangle _) 1
  have hpasses : tangle.Passes
      (fun v x ↦ tangle.resolveBounds setting .leastUpper (.type v) x) .undefined before
      (.named "a") :=
    .cons (w := .undefined) (by decide +kernel)
      (.cons (w := .named "a") (by decide +kernel) (.nil _))
  have hfound : (tangle.resolveBounds setting .leastUpper (.type (.named "a"))
      (.type (.named "b"))).answer tangle = found := by decide +kernel
  have hmembers : tangle.Passes (Hierarchy.memberStep .leastUpper) .undefined
      [.type (.named "a"), .type (.named "a")] (.named "a") :=
    .cons (w := .named "a") (by decide) (.cons (w := .named "a") (by decide) (.nil _))
  have hlooked : (Hierarchy.memberStep .leastUpper (.named "a") (.type (.named "b"))).answer
      tangle = found := by decide +kernel
  obtain ⟨hoperands, htypes⟩ :=
    htracks.folds_warn_of_ambiguity setting .leastUpper (Nat.le_refl 1)
  have hwarned := (hoperands.ambiguous before (.type (.named "b")) after (.named "a") hpasses
    (by decide +kernel)).2
  have hwarned' := (htypes.ambiguous [.named "a", .named "a"] (.named "b") [] (.named "a") hmembers
    (by decide +kernel)).2
  rw [id, hfound, List.map_id] at hwarned
  rw [hlooked] at hwarned'
  exact ⟨htracks, Nat.le_refl 1, hpasses, hfound, hwarned, by decide +kernel, hwarned'⟩

end Taxonomy
