import Taxonomy.Proofs.Representation.Course
import Taxonomy.Proofs.Resolution.Hearing

/-!
# Reserved operands of a fold

The identity leaves every value as it is, and every value with the absorbing one comes to the
absorbing one. The first holds whatever value a fold has got to, be it a reserved value that a hook
has answered with; so identities among the operands can be left out
(`Hierarchy.foldBounds_filter`). Once a fold has got to the absorbing value it stays there, and a
fold that stops comes to it as well; so it does not matter how far a fold gets if one of its
operands is absorbing (`Hierarchy.value_run_foldBounds_of_mem`).

The hierarchy has no part in this, and the hooks may answer what they like.
-/

namespace Taxonomy.Hierarchy

variable {h : Hierarchy} {b : Bound} {setting : Setting}

/-! ## Steps -/

/-- What the reserved values settle is neither put to hooks nor looked up. -/
theorem resolveBounds_of_reserved {x y : Operand} {types : List Ty}
    (heq : Reserved.operandBounds b x y = some types) :
    h.resolveBounds setting b x y = .done types := by
  have hdecide : setting.decideBounds b x y = pure (some types) := by
    rw [Setting.decideBounds, heq]
  simp only [resolveBounds, hdecide]
  rfl

theorem resolveBounds_identity (v : Ty) :
    h.resolveBounds setting b (.type v) (.type (Reserved.identity b)) = .done [v] :=
  resolveBounds_of_reserved (Reserved.bounds_identity_right b v)

theorem resolveBounds_absorbing (v : Ty) :
    h.resolveBounds setting b (.type v) (.type (Reserved.absorbing b)) =
      .done [Reserved.absorbing b] :=
  resolveBounds_of_reserved (Reserved.bounds_absorbing_right b v)

/-- The absorbing value stays what it is with every operand, hooks included. -/
theorem absorbing_resolveBounds (x : Operand) :
    h.resolveBounds setting b (.type (Reserved.absorbing b)) x = .done [Reserved.absorbing b] := by
  refine resolveBounds_of_reserved ?_
  cases x with
  | type t => exact Reserved.bounds_absorbing_left b t
  | hook id => simp [Reserved.operandBounds]

/-! ## Folds -/

variable {verbosity : Verbosity} {step : Ty → Operand → Inquiry (List Ty)} {all l : List Operand}
  {operand : Operand}

/-- Operands that leave every value as it is can be left out. -/
theorem foldBounds_filter (hneutral : ∀ v, step v operand = .done [v]) (v : Ty)
    (l : List Operand) :
    foldBounds verbosity b step all v (l.filter (· ≠ operand)) =
      foldBounds verbosity b step all v l := by
  induction l generalizing v with
  | nil => rfl
  | cons x rest ih =>
    by_cases hx : x = operand
    · subst hx
      rw [List.filter_cons_of_neg (by simp), ih, foldBounds, hneutral]
      rfl
    · rw [List.filter_cons_of_pos (by simpa using hx), foldBounds, foldBounds]
      refine congrArg _ (funext fun bounds ↦ ?_)
      rcases bounds with _ | ⟨bound, _ | ⟨other, rest⟩⟩
      · rfl
      · exact ih bound
      · rfl

/-- Only a report with context shows all operands. -/
theorem foldBounds_of_ne_context (hverbosity : verbosity ≠ .context) (all all' : List Operand)
    (v : Ty) (l : List Operand) :
    foldBounds verbosity b step all v l = foldBounds verbosity b step all' v l := by
  induction l generalizing v with
  | nil => rfl
  | cons x rest ih =>
    rw [foldBounds, foldBounds]
    refine congrArg _ (funext fun bounds ↦ ?_)
    rcases bounds with _ | ⟨bound, _ | ⟨other, rest⟩⟩
    · rfl
    · exact ih bound
    · cases verbosity with
      | context => exact absurd rfl hverbosity
      | _ => rfl

/-- From a value that stays what it is a fold does not get away. -/
theorem foldBounds_of_stays {v : Ty} (hstays : ∀ x, step v x = .done [v]) (l : List Operand) :
    foldBounds verbosity b step all v l = .done v := by
  induction l with
  | nil => rfl
  | cons x rest ih =>
    rw [foldBounds, hstays]
    exact ih

/-- A fold with an operand that comes to the absorbing value does so too, or stops before. -/
theorem value_run_foldBounds_of_mem
    (hstays : ∀ x, step (Reserved.absorbing b) x = .done [Reserved.absorbing b])
    (habsorbs : ∀ v, step v operand = .done [Reserved.absorbing b]) (hmem : operand ∈ l) (v : Ty)
    (r : Representation) :
    ((foldBounds verbosity b step all v l).run r).value.1 = Reserved.absorbing b := by
  induction l generalizing v r with
  | nil => cases hmem
  | cons x rest ih =>
    rw [foldBounds, Inquiry.bind_eq, Inquiry.run_andThen, Journaled.value_bind]
    rcases List.mem_cons.1 hmem with rfl | hmem
    · rw [habsorbs]
      exact congrArg (fun y : Inquiry Ty ↦ (y.run r).value.1) (foldBounds_of_stays hstays rest)
    · obtain ⟨bounds, r'⟩ := ((step v x).run r).value
      rcases bounds with _ | ⟨bound, _ | ⟨other, rest⟩⟩
      · rfl
      · exact ih hmem bound r'
      · cases verbosity <;> rfl

/-- Only the list that a report would show tells of the identities among the operands. -/
theorem fold_eq_foldBounds_filter (l : List Operand) : h.fold setting b l =
    foldBounds setting.config.verbosity b (fun v x ↦ h.resolveBounds setting b (.type v) x) l
      (Reserved.identity b) (l.filter (· ≠ .type (Reserved.identity b))) :=
  (foldBounds_filter resolveBounds_identity (Reserved.identity b) l).symm

/-- **Identities can be left out of a fold, and an absorbing operand decides it.** Whatever hooks
answer, folds over operands that are the same but for identities come to the same, ask the same and
look up the same; at most the list of operands in a report differs. A fold over operands one of
which is the absorbing value comes to that value. -/
theorem fold_identity_and_absorbing (r : Representation) (setting : Setting) (b : Bound) :
    (∀ l m : List Operand, l.filter (· ≠ .type (Reserved.identity b)) =
        m.filter (· ≠ .type (Reserved.identity b)) →
      ((r.hierarchy.fold setting b l).run r).value = ((r.hierarchy.fold setting b m).run r).value ∧
      ((r.hierarchy.fold setting b l).run r).questions =
        ((r.hierarchy.fold setting b m).run r).questions ∧
      (r.hierarchy.fold setting b l).lookUps r = (r.hierarchy.fold setting b m).lookUps r ∧
      (setting.config.verbosity ≠ .context →
        r.hierarchy.fold setting b l = r.hierarchy.fold setting b m)) ∧
    ∀ l : List Operand, .type (Reserved.absorbing b) ∈ l →
      ((r.hierarchy.fold setting b l).run r).value.1 = Reserved.absorbing b := by
  constructor
  · intro l m hlm
    have hhushed : (r.hierarchy.fold setting b l).hushed =
        (r.hierarchy.fold setting b m).hushed := by
      rw [fold_eq_foldBounds_filter l, fold_eq_foldBounds_filter m, hlm]
      exact hushed_foldBounds ..
    obtain ⟨hvalue, hquestions⟩ := Inquiry.run_eq_of_hushed_eq hhushed r
    refine ⟨hvalue, hquestions, Inquiry.lookUps_eq_of_hushed_eq hhushed r, fun hverbosity ↦ ?_⟩
    rw [fold_eq_foldBounds_filter l, fold_eq_foldBounds_filter m, hlm]
    exact foldBounds_of_ne_context hverbosity ..
  · intro l hmem
    exact value_run_foldBounds_of_mem absorbing_resolveBounds resolveBounds_absorbing hmem
      (Reserved.identity b) r

/-- The left hook takes a join that has got to `a` back to `undefined`. Still the operands that are
`undefined` make no difference, and with `top` at the end the hooks make none. -/
theorem fold_identity_and_absorbing_voices :
    let r := Representation.plain (Hierarchy.new "r")
    let setting : Setting := ⟨{}, voices (.bounds [.undefined]) (.bounds [.named "a"])⟩
    let l : List Operand :=
      [.type .undefined, .hook "right", .hook "left", .type .undefined, .hook "right"]
    let m : List Operand := [.hook "right", .hook "left", .hook "right"]
    l.filter (· ≠ .type .undefined) = m.filter (· ≠ .type .undefined) ∧
    ((r.hierarchy.fold setting .leastUpper l).run r).value.1 = .named "a" ∧
    ((r.hierarchy.fold setting .leastUpper l).run r).value =
      ((r.hierarchy.fold setting .leastUpper m).run r).value ∧
    .type .top ∈ l ++ [.type .top] ∧
    ((r.hierarchy.fold setting .leastUpper (l ++ [.type .top])).run r).value.1 = .top := by
  intro r setting l m
  obtain ⟨hidentity, habsorbing⟩ := fold_identity_and_absorbing r setting .leastUpper
  have hfilter : l.filter (· ≠ .type .undefined) = m.filter (· ≠ .type .undefined) := by decide
  have hmem : Operand.type .top ∈ l ++ [.type .top] := by decide
  exact ⟨hfilter, by decide +kernel, (hidentity l m hfilter).1, hmem, habsorbing _ hmem⟩

end Taxonomy.Hierarchy
