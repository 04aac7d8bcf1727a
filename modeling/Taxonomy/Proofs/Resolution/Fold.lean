import Taxonomy.Proofs.Resolution.Order
import Taxonomy.Proofs.Resolution.Types

/-!
# Folds of bounds

A fold goes from one only bound to the next, and an only bound stands for what is beyond both types
it is a bound of. So a value that a fold comes to *sums up* the operands: beyond it lies what lies
beyond all of them (`Hierarchy.SumsUp`). That is the invariant, and it determines the value, for
types that the same lies beyond are one type where there is no cycle (`SumsUp.unique`).

A fold that stops early comes to the absorbing value. That sums up the operands as well if nothing
else is beyond them; the only other reason to stop is a pair of types with several bounds
(`Acyclic.sumsUp_fold_or`). In a deterministic hierarchy there is none, and a fold does not depend
on the order of its operands. In others it may stop in one order and not in another, but orders in
which it does not stop come to the same value.
-/

open Relation

namespace Taxonomy.Hierarchy

variable {h : Hierarchy} {b : Bound} {l m : List Ty} {s t v w z : Ty} {setting : Setting}

/-! ## Folds over types -/

/-- What a fold over types comes to from a value on. -/
def foldFrom (h : Hierarchy) (b : Bound) : Ty → List Ty → Ty
  | value, [] => value
  | value, t :: rest =>
    match (h.inquireBounds b value t).answer h with
    | [bound] => h.foldFrom b bound rest
    | _ => Reserved.absorbing b

/-- A fold goes on from an only bound and stops otherwise; what it reports makes no difference. -/
theorem answer_foldBounds_cons {verbosity : Verbosity} {step : Ty → Operand → Inquiry (List Ty)}
    {all rest : List Operand} {operand : Operand} :
    (foldBounds verbosity b step all v (operand :: rest)).answer h =
      match (step v operand).answer h with
      | [bound] => (foldBounds verbosity b step all bound rest).answer h
      | _ => Reserved.absorbing b := by
  rw [foldBounds, Inquiry.bind_eq, Inquiry.answer_andThen]
  split
  · simp_all
  · simp_all
  · simp_all

/-- A fold over types takes the steps of `foldFrom` if `step` finds their bounds. -/
theorem answer_foldBounds_types {verbosity : Verbosity} {step : Ty → Operand → Inquiry (List Ty)}
    {all : List Operand}
    (hstep : ∀ v t, (step v (.type t)).answer h = (h.inquireBounds b v t).answer h) :
    (foldBounds verbosity b step all v (l.map .type)).answer h = h.foldFrom b v l := by
  induction l generalizing v with
  | nil => rfl
  | cons t rest ih =>
    rw [List.map_cons, answer_foldBounds_cons, hstep, foldFrom]
    split
    · exact ih
    · rfl

/-- The join or the meet of types. -/
theorem answer_fold : (h.fold setting b (l.map .type)).answer h =
    h.foldFrom b (Reserved.identity b) l :=
  answer_foldBounds_types fun _ _ ↦ congrArg (Inquiry.answer h) resolveBounds_type

/-! ## What a fold comes to -/

/-- Beyond `v` lies what lies beyond all types of a list. -/
def SumsUp (h : Hierarchy) (b : Bound) (l : List Ty) (v : Ty) : Prop :=
  ∀ z, h.Beyond b v z ↔ ∀ t ∈ l, h.Beyond b t z

/-- Types are summed up by one type at most, whatever order they are listed in. -/
theorem SumsUp.unique (hv : h.SumsUp b l v) (hu : h.SumsUp b m w) (hlm : ∀ t, t ∈ l ↔ t ∈ m)
    (hc : h.Acyclic) (hw : h.WellFormed) : v = w := by
  have hsame : ∀ z, h.Beyond b v z ↔ h.Beyond b w z := by
    intro z
    rw [hv z, hu z]
    exact forall_congr' fun t ↦ imp_congr_left (hlm t)
  exact hc.beyond_antisymm hw ((hsame w).2 (hw.beyond_refl b w)) ((hsame v).1 (hw.beyond_refl b v))

/-- What sums up a member is beyond it. -/
theorem SumsUp.hasType (hv : h.SumsUp b l v) (hw : h.WellFormed) (ht : t ∈ l) (hmem : h.hasType t)
    (hne : v ≠ Reserved.absorbing b) : h.hasType v := by
  have hbeyond : h.Beyond b t v := (hv v).1 (hw.beyond_refl b v) t ht
  have hpath := ((hw.beyond_iff_of_hasType hmem).1 hbeyond).resolve_left hne
  exact hw.mirrored.hasType_of_reflTransGen hmem hpath

/-- **A fold keeps what is beyond all operands so far**, and stops only if that is the absorbing
value alone or if bounds are ambiguous. -/
theorem Acyclic.beyond_foldFrom_or (hc : h.Acyclic) (hw : h.WellFormed) (b : Bound) (v : Ty)
    (l : List Ty) :
    (∀ z, h.Beyond b (h.foldFrom b v l) z ↔ h.Beyond b v z ∧ ∀ t ∈ l, h.Beyond b t z) ∨
      h.foldFrom b v l = Reserved.absorbing b ∧ ¬ h.Unambiguous b := by
  induction l generalizing v with
  | nil => simp [foldFrom]
  | cons t rest ih =>
    rw [foldFrom]
    split
    · rename_i bound honly
      simpa only [List.forall_mem_cons, hc.beyond_iff_of_only_bound hw honly, and_assoc]
        using ih bound
    · rename_i hnone
      by_cases hu : h.Unambiguous b
      · refine .inl fun z ↦ ?_
        rw [hw.beyond_absorbing_iff]
        constructor
        · rintro rfl
          exact ⟨hw.beyond_absorbing b v, fun s _ ↦ hw.beyond_absorbing b s⟩
        · rintro ⟨hvz, hlz⟩
          exact hu.eq_absorbing hc hw hnone hvz (hlz t List.mem_cons_self)
      · exact .inr ⟨rfl, hu⟩

/-- **A fold sums up its operands**, unless it stops because bounds are ambiguous. -/
theorem Acyclic.sumsUp_fold_or (hc : h.Acyclic) (hw : h.WellFormed) (b : Bound) (l : List Ty) :
    h.SumsUp b l (h.foldFrom b (Reserved.identity b) l) ∨
      h.foldFrom b (Reserved.identity b) l = Reserved.absorbing b ∧ ¬ h.Unambiguous b := by
  simpa only [SumsUp, hw.beyond_identity, true_and]
    using hc.beyond_foldFrom_or hw b (Reserved.identity b) l

/-- If bounds are unambiguous a fold sums up its operands in any case. -/
theorem Unambiguous.sumsUp_fold (hu : h.Unambiguous b) (hc : h.Acyclic) (hw : h.WellFormed)
    (l : List Ty) : h.SumsUp b l (h.foldFrom b (Reserved.identity b) l) :=
  (hc.sumsUp_fold_or hw b l).resolve_right fun hstop ↦ hstop.2 hu

/-- **What a fold over members comes to stands for them**, deterministic or not. Unless it stops, a
join is a member that subsumes what all operands subsume, and a meet is a member subsumed by what
subsumes all operands. Two lists of the same operands, in whatever order, come to the same value
unless the fold over one of them stops. -/
theorem Grown.fold_stands_for_members (hg : h.Grown) (hc : h.Acyclic) (setting : Setting)
    (hl : l ≠ []) (hmem : ∀ t ∈ l, h.hasType t) :
    (∀ join, (h.fold setting .leastUpper (l.map .type)).answer h = join → join ≠ .top →
      h.hasType join ∧ ∀ z, h.hasType z →
        ((∀ t ∈ l, (h.inquireSubsumes t z).answer h = true) ↔
          (h.inquireSubsumes join z).answer h = true)) ∧
    (∀ meet, (h.fold setting .greatestLower (l.map .type)).answer h = meet → meet ≠ .undefined →
      h.hasType meet ∧ ∀ z, h.hasType z →
        ((∀ t ∈ l, (h.inquireSubsumes z t).answer h = true) ↔
          (h.inquireSubsumes z meet).answer h = true)) ∧
    ∀ b (m : List Ty), (∀ t, t ∈ l ↔ t ∈ m) →
      (h.fold setting b (l.map .type)).answer h ≠ Reserved.absorbing b →
      (h.fold setting b (m.map .type)).answer h ≠ Reserved.absorbing b →
      (h.fold setting b (l.map .type)).answer h = (h.fold setting b (m.map .type)).answer h := by
  have hw : h.WellFormed := hg.wellFormed
  have hsum : ∀ b (m : List Ty), (h.fold setting b (m.map .type)).answer h ≠ Reserved.absorbing b →
      h.SumsUp b m ((h.fold setting b (m.map .type)).answer h) := by
    intro b m hne
    rw [answer_fold] at hne ⊢
    exact (hc.sumsUp_fold_or hw b m).resolve_right fun hstop ↦ hne hstop.1
  obtain ⟨t, ht⟩ := List.exists_mem_of_ne_nil l hl
  refine ⟨?_, ?_, fun b m hlm hlne hmne ↦ (hsum b l hlne).unique (hsum b m hmne) hlm hc hw⟩
  · rintro join rfl hne
    have hjoin := hsum .leastUpper l hne
    exact ⟨hjoin.hasType hw ht (hmem t ht) hne, fun z _ ↦ (hjoin z).symm⟩
  · rintro meet rfl hne
    have hmeet := hsum .greatestLower l hne
    exact ⟨hmeet.hasType hw ht (hmem t ht) hne, fun z _ ↦ (hmeet z).symm⟩

/-- Two types, `a` and `b`, with two types below both. -/
def crown : Hierarchy :=
  [.add "a" [], .add "b" [], .add "c" ["a", "b"], .add "d" ["a", "b"]].foldl
    (fun h r ↦ (h.serve {} r).value.1) (Hierarchy.new "r")

theorem grown_crown : crown.Grown := by
  refine Grown.foldl_serve (.new "r") {} ?_
  simp [Request.sources]

theorem acyclic_crown : crown.Acyclic :=
  grown_crown.wellFormed.mirrored.acyclic_iff.2 (by decide +kernel)

/-- The join of `a` and `b` is ambiguous, so that a join with `c` must not begin with these two. -/
theorem fold_stands_for_members_crown :
    crown.Grown ∧ crown.Acyclic ∧ (∀ t ∈ [Ty.named "c", .named "a", .named "b"], crown.hasType t) ∧
    (crown.fold ⟨{}, fun _ ↦ .bare⟩ .leastUpper
      ([.named "a", .named "b", .named "c"].map .type)).answer crown = .top ∧
    (crown.fold ⟨{}, fun _ ↦ .bare⟩ .leastUpper
      ([.named "c", .named "a", .named "b"].map .type)).answer crown =
        (crown.fold ⟨{}, fun _ ↦ .bare⟩ .leastUpper
          ([.named "a", .named "c", .named "b"].map .type)).answer crown := by
  have hmem : ∀ t ∈ [Ty.named "c", .named "a", .named "b"], crown.hasType t := by decide
  obtain ⟨-, -, horder⟩ := grown_crown.fold_stands_for_members acyclic_crown
    ⟨{}, fun _ ↦ .bare⟩ (List.cons_ne_nil _ _) hmem
  refine ⟨grown_crown, acyclic_crown, hmem, by decide +kernel, horder _ _ ?_ ?_ ?_⟩
  · simp [or_left_comm]
  · decide +kernel
  · decide +kernel

end Taxonomy.Hierarchy
