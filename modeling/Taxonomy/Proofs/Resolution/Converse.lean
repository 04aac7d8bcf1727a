import Taxonomy.Proofs.Representation.Capacity
import Taxonomy.Proofs.Resolution.Hearing

/-!
# Converse operations

An operation on two operands comes to the same as its converse on the operands in the other order.
Each stage of resolution has this property: the reserved values settle both alike, the same
questions are put to the same hooks, though in the other order, and look-ups are either the same or
symmetric, in every representation and whatever state its layers are in
(`Representation.lookUpBounds_comm`).

The order of the questions decides only if both operands are hooks and say different things. That is
the one exception (`Representation.resolve_converse`).
-/

namespace Taxonomy

variable {h : Hierarchy} {hooks : Hooks} {config : Config} {o : Operation}
  {x y : Operand} {a b : Answer}

/-! ## Reserved values -/

theorem Reserved.relation_converse (r : Relation) (x y : Operand) :
    relation r.converse y x = relation r x y := by
  rw [relation, Relation.orient_converse, Relation.isProper_converse]
  rfl

theorem Reserved.bounds_comm (b : Bound) (s t : Ty) : bounds b s t = bounds b t s := by
  rw [bounds, bounds]
  by_cases hst : s = t
  · rw [hst]
  · rw [if_neg hst, if_neg (Ne.symm hst), Bool.or_comm]
    split_ifs with _ hs ht
    · rfl
    · exact absurd (hs.trans ht.symm) hst
    all_goals rfl

theorem Reserved.operandBounds_comm (b : Bound) (x y : Operand) :
    operandBounds b x y = operandBounds b y x := by
  cases x <;> cases y
  case type.type s t => exact bounds_comm b s t
  all_goals simp only [operandBounds, Bool.or_comm]

theorem Reserved.settled?_converse : settled? o.converse y x = settled? o x y := by
  cases o with
  | relation r => exact congrArg (Option.map _) (relation_converse r x y)
  | bounds b => exact congrArg (Option.map _) (operandBounds_comm b y x)

/-- Hooks are barred from an operation and from its converse alike. -/
theorem Barred.converse (hbarred : Barred config o x y) : Barred config o.converse y x := by
  cases hbarred with
  | off hoff => exact .off hoff
  | types hhook => exact .types (Bool.or_comm .. ▸ hhook)
  | identical r => exact .identical r.converse x
  | reserved ht hmem => exact .reserved ht hmem.symm
  | absorbing hmem => exact .absorbing hmem.symm

/-! ## Hooks -/

theorem Hooks.Says.unique (ha : hooks.Says x o y a) (hb : hooks.Says x o y b) : a = b := by
  rw [← Hooks.said?_eq_some_iff] at ha hb
  exact Option.some_inj.1 (ha.symm.trans hb)

/-- What is heard does not depend on who is asked first, unless both say something and it is not the
same. -/
theorem Hooks.Heard.unique_of_converse {events events' : List Event}
    (hagree : ∀ a b, hooks.Says x o y a → hooks.Says y o.converse x b → a = b)
    (ha : hooks.Heard o x y events a) (hb : hooks.Heard o.converse y x events' b) : a = b := by
  have hconverse : o.converse.converse = o := o.converse_converse
  cases ha with
  | left hx =>
    cases hb with
    | left hy => exact hagree a b hx hy
    | right _ hx' => exact hx.unique (hconverse ▸ hx')
    | neither _ hx' => exact absurd hx (hconverse ▸ hx' a)
  | right hx hy =>
    cases hb with
    | left hy' => exact hy.unique hy'
    | right hy' => exact absurd hy (hy' a)
    | neither hy' => exact absurd hy (hy' a)
  | neither hx hy =>
    cases hb with
    | left hy' => exact absurd hy' (hy b)
    | right _ hx' => exact absurd (hconverse ▸ hx') (hx b)
    | neither => cases o <;> rfl

/-! ## Look-ups -/

theorem FinSet.inter_comm {α : Type} [Ord α] [Std.TransOrd α] [Std.LawfulEqOrd α] (s t : FinSet α) :
    s.inter t = t.inter s :=
  FinSet.ext fun _ ↦ by rw [FinSet.mem_inter, FinSet.mem_inter, and_comm]

theorem BitSet.inter_comm (s t : BitSet) : s.inter t = t.inter s :=
  congrArg BitSet.mk (Nat.and_comm ..)

/-- What walking finds is symmetric even where the maps are not mirrored. -/
theorem Hierarchy.bounds_swap (h : Hierarchy) (b : Bound) (s t : Ty) :
    h.bounds b s t = h.bounds b t s := by
  cases b <;> simp only [bounds, FinSet.inter_comm (h.reflexiveClosure _ s)]

theorem Rows.bounds_comm (rows : Rows) (b : Bound) (i j : Nat) :
    rows.bounds b i j = rows.bounds b j i := by
  cases b <;> simp only [bounds, hull, BitSet.inter_comm (BitSet.insert _ i)]

theorem Rows.indices?_swap (rows : Rows) (s t : Ty) :
    rows.indices? t s = (rows.indices? s t).map Prod.swap := by
  rw [indices?, indices?]
  cases rows.index? s <;> cases rows.index? t <;> rfl

theorem Compiled.indexed?_swap (c : Compiled) (s t : Ty) :
    c.indexed? t s = (c.indexed? s t).map fun (rows, i, j) ↦ (rows, j, i) := by
  rw [indexed?, indexed?]
  cases c.rows? with
  | none => rfl
  | some rows =>
    show (rows.indices? t s).bind _ = Option.map _ ((rows.indices? s t).bind _)
    rw [rows.indices?_swap]
    cases rows.indices? s t <;> rfl

theorem Compiled.lookUpBounds_comm (c : Compiled) (b : Bound) (s t : Ty) :
    c.lookUpBounds b s t = c.lookUpBounds b t s := by
  simp only [lookUpBounds, Hierarchy.bounds_swap _ b s t, indexed?_swap _ s t]
  split
  · rfl
  · refine congrArg _ (funext fun c ↦ ?_)
    rcases c.indexed? s t with _ | ⟨rows, i, j⟩
    · rfl
    · exact congrArg (fun types ↦ pure (types, c)) (rows.bounds_comm b i j)

/-- **Bounds are looked up symmetrically** by every representation, be it up to date or not. -/
theorem Representation.lookUpBounds_comm (r : Representation) (b : Bound) (s t : Ty) :
    r.lookUpBounds b s t = r.lookUpBounds b t s := by
  induction r with
  | plain h => rw [lookUpBounds, lookUpBounds, Hierarchy.bounds_swap]
  | compiled c => rw [lookUpBounds, lookUpBounds, Compiled.lookUpBounds_comm]
  | memoized memo inner ih => rw [lookUpBounds, lookUpBounds, MemoKey.of_comm, ih]

theorem Hierarchy.run_lookUp_converse (r : Representation) :
    (h.lookUp o.converse y x).run r = (h.lookUp o x y).run r := by
  cases x <;> cases y
  case type.type s t =>
    cases o with
    | relation rel =>
      have hst : decide (t = s) = decide (s = t) := decide_eq_decide.2 eq_comm
      rw [Operation.converse, lookUp, lookUp, Relation.orient_converse, Relation.isProper_converse,
        Bool.and_comm (h.hasType t), hst]
    | bounds b =>
      rw [Operation.converse, lookUp, lookUp, Bool.and_comm (h.hasType t)]
      split_ifs
      · rw [Inquiry.run, Inquiry.run, Representation.lookUpBounds_comm]
      · rfl
  all_goals cases o <;> rfl

/-! ## Resolution -/

theorem Operation.denial_converse (o : Operation) : o.converse.denial = o.denial := by
  cases o <;> rfl

/-- **Converse operations agree** on operands in opposite order, unless both are hooks that say
different things: every representation gives the same answer and comes to the same, and so it is
without a hierarchy. -/
theorem Representation.resolve_converse (r : Representation) (setting : Setting) (o : Operation)
    (x y : Operand)
    (hagree : ∀ a b,
      setting.hooks.Says x o y a → setting.hooks.Says y o.converse x b → a = b) :
    ((r.hierarchy.resolve setting o x y).run r).value =
      ((r.hierarchy.resolve setting o.converse y x).run r).value ∧
    (setting.resolve o x y).value = (setting.resolve o.converse y x).value := by
  obtain ⟨config, hooks⟩ := setting
  by_cases hbarred : Barred config o x y
  · have hbarred' : Barred config o.converse y x := hbarred.converse
    constructor
    · rw [Hierarchy.resolve_of_barred hbarred, Hierarchy.resolve_of_barred hbarred',
        Reserved.settled?_converse]
      cases Reserved.settled? o x y with
      | some a => rfl
      | none => exact congrArg Journaled.value (Hierarchy.run_lookUp_converse r).symm
    · rw [Setting.resolve_eq, Setting.resolve_eq, Setting.decide_of_barred hbarred,
        Setting.decide_of_barred hbarred', Reserved.settled?_converse, Operation.denial_converse]
  · have hopen' : ¬ Barred config o.converse y x := fun hbarred' ↦
      hbarred (o.converse_converse ▸ hbarred'.converse)
    have hsame := (Setting.heard_decide hbarred).unique_of_converse hagree
      (Setting.heard_decide hopen')
    constructor
    · rw [Hierarchy.resolve_of_not_barred hbarred, Hierarchy.resolve_of_not_barred hopen', hsame,
        Inquiry.value_run_noteAll, Inquiry.value_run_noteAll]
    · rw [Setting.resolve_eq, Setting.resolve_eq]
      exact hsame

/-- Two hooks list the same types, one of them out of order and twice, so either may be asked
first. -/
theorem resolve_converse_voices :
    let hooks := voices (.bounds [.named "b", .named "a", .named "b"])
      (.bounds [.named "a", .named "b"])
    let setting : Setting := ⟨{}, hooks⟩
    let r := (Representation.plain Hierarchy.knot).memoize 1
    (∀ a b, hooks.Says (.hook "left") (.bounds .leastUpper) (.hook "right") a →
      hooks.Says (.hook "right") (.bounds .leastUpper) (.hook "left") b → a = b) ∧
    ((r.hierarchy.resolve setting (.bounds .leastUpper) (.hook "left") (.hook "right")).run
        r).value =
      ((r.hierarchy.resolve setting (.bounds .leastUpper) (.hook "right") (.hook "left")).run
        r).value ∧
    (setting.resolve (.bounds .leastUpper) (.hook "left") (.hook "right")).value =
      (setting.resolve (.bounds .leastUpper) (.hook "right") (.hook "left")).value := by
  intro hooks setting r
  have hleft : hooks.said? (.bounds .leastUpper) (.hook "right") (.hook "left") =
      some (.bounds [.named "a", .named "b"]) := by decide +kernel
  have hright : hooks.said? (.bounds .leastUpper) (.hook "left") (.hook "right") =
      some (.bounds [.named "a", .named "b"]) := by decide +kernel
  have hagree : ∀ a b, hooks.Says (.hook "left") (.bounds .leastUpper) (.hook "right") a →
      hooks.Says (.hook "right") (.bounds .leastUpper) (.hook "left") b → a = b := by
    intro a b ha hb
    rw [← Hooks.said?_eq_some_iff] at ha hb
    rw [hleft] at ha
    rw [hright] at hb
    exact Option.some_inj.1 (ha.symm.trans hb)
  exact ⟨hagree, r.resolve_converse setting (.bounds .leastUpper) (.hook "left") (.hook "right")
    hagree⟩

end Taxonomy
