import Taxonomy.Proofs.Representation.Agreement
import Taxonomy.Proofs.Resolution.Ascending
import Taxonomy.Proofs.Resolution.Fold

/-!
# Sets are looked up in ascending order

Every representation lists the bounds it looks up in ascending order: by walking, because a set is
listed so; by rows, because types are numbered in that order and numbers are listed as they ascend;
from a memo, because it remembers what was looked up and nothing else. None of this hangs on whether
rows or memos are up to date. So it is enough that they have been made in an orderly way
(`Representation.Tidy`), also where a hierarchy has been put in place behind their back and the
bounds are wrong.

`Representation.Built` says how a representation may have come about. It leaves the client at
liberty to do anything that it can do.
-/

namespace Taxonomy

open Ty (Ascending)

/-! ## Layers -/

/-- The types are numbered in ascending order. -/
def Compiled.Tidy (c : Compiled) : Prop :=
  ∀ rows, c.rows = some rows → Ascending rows.types.toList

/-- All bounds that are remembered are in ascending order. -/
def Memo.Tidy (memo : Memo) : Prop := memo.Every fun _ bounds ↦ Ascending bounds

/-- Rows that number types in ascending order list bounds in ascending order. -/
theorem Rows.ascending_bounds {rows : Rows} (htypes : Ascending rows.types.toList) (b : Bound)
    (i j : Nat) : Ascending (rows.bounds b i j) := by
  have hplaces : ∀ x : Nat, rows.types[x]? = rows.types.toList[x]? :=
    fun x ↦ Array.getElem?_toList.symm
  cases b with
  | leastUpper => exact pairwise_hull hplaces htypes
  | greatestLower => exact pairwise_hull hplaces htypes

namespace Compiled.Tidy

variable {c : Compiled}

theorem refresh (hc : c.Tidy) : c.refresh.value.Tidy := by
  rcases value_refresh (c := c) with ⟨heq, -⟩ | heq
  · rwa [heq]
  · rw [heq]
    intro rows hrows
    obtain rfl := Option.some.inj hrows
    exact FinSet.ascending _

theorem of_rows? (hc : c.Tidy) {rows : Rows} (hrows : c.rows? = some rows) :
    Ascending rows.types.toList := by
  rw [rows?] at hrows
  split at hrows
  · exact hc rows hrows
  · cases hrows

theorem lookUpSubsumes (hc : c.Tidy) (general specific : Ty) :
    (c.lookUpSubsumes general specific).value.2.Tidy := by
  rw [Compiled.lookUpSubsumes, Journaled.value_bind]
  split
  · exact hc.refresh
  · exact hc.refresh

theorem lookUpBounds (hc : c.Tidy) (b : Bound) (left right : Ty) :
    Ascending (c.lookUpBounds b left right).value.1 ∧
      (c.lookUpBounds b left right).value.2.Tidy := by
  rw [Compiled.lookUpBounds]
  split
  · exact ⟨FinSet.ascending _, hc⟩
  · rw [Journaled.value_bind]
    split
    · rename_i rows i j hij
      have hrows := hc.refresh.of_rows? (indexed?_eq_some_iff.1 hij).1
      exact ⟨rows.ascending_bounds hrows b i j, hc.refresh⟩
    · exact ⟨FinSet.ascending _, hc.refresh⟩

theorem setEnabled (hc : c.Tidy) (on : Bool) : (c.setEnabled on).Tidy := by
  intro rows hrows
  cases on with
  | false => cases hrows
  | true => exact hc rows hrows

end Compiled.Tidy

namespace Representation

variable {r r' : Representation}

/-- All layers have been made in an orderly way. -/
def Tidy : Representation → Prop
  | plain _ => True
  | compiled c => c.Tidy
  | memoized memo inner => memo.Tidy ∧ inner.Tidy

namespace Tidy

/-! ## Looking up -/

theorem lookUpSubsumes (hr : r.Tidy) (general specific : Ty) :
    (r.lookUpSubsumes general specific).value.2.Tidy := by
  induction r with
  | plain h => trivial
  | compiled c => exact Compiled.Tidy.lookUpSubsumes hr general specific
  | memoized memo inner ih => exact ⟨hr.1, ih hr.2⟩

/-- **Bounds are looked up in ascending order**, and what is remembered of it is. -/
theorem lookUpBounds (hr : r.Tidy) (b : Bound) (left right : Ty) :
    Ascending (r.lookUpBounds b left right).value.1 ∧
      (r.lookUpBounds b left right).value.2.Tidy := by
  induction r with
  | plain h => exact ⟨FinSet.ascending _, trivial⟩
  | compiled c => exact Compiled.Tidy.lookUpBounds hr b left right
  | memoized memo inner ih =>
    obtain ⟨hmemo, hinner⟩ := hr
    have hfresh : (memo.refresh inner.hierarchy.generation).value.Tidy := hmemo.refresh _
    rw [Representation.lookUpBounds, Journaled.value_bind]
    dsimp only
    split
    · rename_i bounds hfind
      have hbounds : Ascending bounds := hfresh _ _ hfind
      exact ⟨hbounds, hfresh.hit hbounds, hinner⟩
    · obtain ⟨hbounds, hlast⟩ := ih hinner
      exact ⟨hbounds, hfresh.put hbounds, hlast⟩

/-! ## Other steps -/

theorem withHierarchy (hr : r.Tidy) (h : Hierarchy) : (r.withHierarchy h).Tidy := by
  induction r with
  | plain _ => trivial
  | compiled c => exact hr
  | memoized memo inner ih => exact ⟨hr.1, ih hr.2⟩

theorem setCompiled (hr : r.Tidy) (on : Bool) : (r.setCompiled on).Tidy := by
  induction r with
  | plain _ => trivial
  | compiled c => exact Compiled.Tidy.setEnabled hr on
  | memoized memo inner ih => exact ⟨hr.1, ih hr.2⟩

theorem compile (hr : r.Tidy) : r.compile.value.2.Tidy := by
  induction r with
  | plain _ => trivial
  | compiled c => exact Compiled.Tidy.refresh hr
  | memoized memo inner ih => exact ⟨hr.1, ih hr.2⟩

theorem memoize (hr : r.Tidy) (capacity : Nat) : (r.memoize capacity).Tidy := ⟨Memo.every_empty, hr⟩

theorem clearMemo (hr : r.Tidy) : r.clearMemo.Tidy := by
  cases r with
  | plain _ => trivial
  | compiled _ => exact hr
  | memoized memo inner => exact ⟨Memo.every_empty, hr.2⟩

theorem unwrap (hr : r.Tidy) : r.unwrap.Tidy := by
  cases r with
  | plain _ => trivial
  | compiled _ => trivial
  | memoized memo inner => exact hr.2

theorem forgets (hr : r.Tidy) (hf : r.Forgets r') : r'.Tidy := by
  induction hf with
  | plain h => trivial
  | compiled c => exact hr
  | memoized _ hfind _ ih =>
    exact ⟨fun key bounds hmemo ↦ hr.1 key bounds (hfind key bounds hmemo), ih hr.2⟩

/-- **What an inquiry ensures comes true**, and the representation stays tidy. -/
theorem yields {α : Type} {p : α → Prop} {x : Inquiry α} {a : α} (hr : r.Tidy) (hx : x.Ensures p)
    (hy : x.Yields r a r') : p a ∧ r'.Tidy := by
  induction hy with
  | done a r => exact ⟨hx, hr⟩
  | forget hforgets _ ih => exact ih (hr.forgets hforgets) hx
  | subsumes _ ih => exact ih (hr.lookUpSubsumes _ _) (hx _)
  | bounds _ ih =>
    obtain ⟨hbounds, hfound⟩ := hr.lookUpBounds _ _ _
    exact ih hfound (hx _ hbounds)
  | note _ ih => exact ih hr hx

end Tidy

/-! ## How representations come about -/

/-- A representation that a client may have come by. Hierarchies may be put in place without any
request, and anything may be put in place within a memo. -/
inductive Built : Representation → Prop
  | plain (h : Hierarchy) : Built (.plain h)
  | compiled (h : Hierarchy) (scope : Option Ty) : Built (.compiled { hierarchy := h, scope })
  | memoize {r : Representation} (hr : Built r) (capacity : Nat) : Built (r.memoize capacity)
  | unwrap {r : Representation} (hr : Built r) : Built r.unwrap
  | withHierarchy {r : Representation} (hr : Built r) (h : Hierarchy) : Built (r.withHierarchy h)
  | setCompiled {r : Representation} (hr : Built r) (on : Bool) : Built (r.setCompiled on)
  | compile {r : Representation} (hr : Built r) : Built r.compile.value.2
  | clearMemo {r : Representation} (hr : Built r) : Built r.clearMemo
  | ask {α : Type} {x : Inquiry α} {r r' : Representation} {a : α} (hr : Built r)
      (hy : x.Yields r a r') : Built r'
  | inside {memo : Memo} {inner inner' : Representation} (hr : Built (.memoized memo inner))
      (hinner : Built inner') : Built (.memoized memo inner')

theorem Built.tidy (hb : r.Built) : r.Tidy := by
  induction hb with
  | plain h => trivial
  | compiled h scope => exact fun _ hrows ↦ nomatch hrows
  | memoize _ capacity ih => exact ih.memoize capacity
  | unwrap _ ih => exact ih.unwrap
  | withHierarchy _ h ih => exact ih.withHierarchy h
  | setCompiled _ on ih => exact ih.setCompiled on
  | compile _ ih => exact ih.compile
  | clearMemo _ ih => exact ih.clearMemo
  | ask _ hy ih => exact (ih.yields (.trivial _) hy).2
  | inside _ _ ih ihinner => exact ⟨ih.1, ihinner⟩

/-- **Sets are in presentation order.** That order is total, and types that it does not tell apart
are equal. However a representation has come about, whatever is read off its hierarchy is listed in
it, and so are all bounds that the representation looks up, all bounds that operands decide on by
themselves, and all sets that a query comes to, whatever the hooks say and whatever is forgotten
meanwhile. -/
theorem Built.presents_sets_in_order (hb : r.Built) :
    (∀ s t : Ty, compare s t = .eq ↔ s = t) ∧
    (∀ s t : Ty, compare t s = (compare s t).swap) ∧
    (∀ s t u : Ty, (compare s t).isLE → (compare t u).isLE → (compare s u).isLE) ∧
    (∀ reading : Reading, (r.hierarchy.read reading).Presented) ∧
    (∀ b left right, Ascending (r.lookUpBounds b left right).value.1) ∧
    (∀ (setting : Setting) b x y, Ascending (setting.bounds b x y).value) ∧
    ∀ setting (query : Query), (∀ l, query ≠ .subsort l) → ∀ reply r',
      (query.inquire setting r.hierarchy).Yields r reply r' → reply.Presented := by
  refine ⟨fun s t ↦ Std.LawfulEqCmp.compare_eq_iff_eq, fun s t ↦ Std.OrientedOrd.eq_swap,
    fun s t u ↦ Std.TransOrd.isLE_trans, r.hierarchy.presented_read, fun b left right ↦ ?_,
    Setting.ascending_bounds, fun setting query hsort reply r' hy ↦ ?_⟩
  · exact (hb.tidy.lookUpBounds b left right).1
  · exact (hb.tidy.yields (query.ensures_inquire hsort) hy).1

/-- Another hierarchy is put in place of the crown behind the back of a memo. What the memo
remembers are not even types of it, but they are in order. -/
theorem presents_sets_in_order_stale :
    let memoized := (Representation.compiled { hierarchy := Hierarchy.crown }).memoize 4
    let asked := (memoized.lookUpBounds .leastUpper (.named "b") (.named "a")).value.2
    let stale := asked.withHierarchy
      { Hierarchy.new "s" with generation := Hierarchy.crown.generation }
    let query : Query := .minimal [.named "d", .top, .named "c"]
    stale.Built ∧ (∀ l, query ≠ .subsort l) ∧
    (stale.lookUpBounds .leastUpper (.named "a") (.named "b")).value.1 =
      [.named "c", .named "d"] ∧
    Ascending (stale.lookUpBounds .leastUpper (.named "a") (.named "b")).value.1 ∧
    (stale.hierarchy.read .types).Presented ∧
    (∀ setting, ((query.inquire setting stale.hierarchy).run stale).value.1.Presented) ∧
    (compare (Ty.named "c") (Ty.named "d")).isLE ∧ (compare Ty.top (Ty.named "c")).isLE ∧
    (compare Ty.top (Ty.named "d")).isLE := by
  intro memoized asked stale query
  have hy : (Inquiry.bounds .leastUpper (.named "b") (.named "a") .done).Yields memoized
      (memoized.lookUpBounds .leastUpper (.named "b") (.named "a")).value.1 asked :=
    .bounds (.done _ _)
  have hb : stale.Built := .withHierarchy (.ask (.memoize (.compiled _ none) 4) hy) _
  obtain ⟨-, -, htrans, hread, hbounds, -, hquery⟩ := hb.presents_sets_in_order
  have hsort : ∀ l, query ≠ .subsort l := nofun
  have htop : (compare Ty.top (Ty.named "c")).isLE := by decide
  have hnames : (compare (Ty.named "c") (Ty.named "d")).isLE := by decide
  exact ⟨hb, hsort, by decide +kernel, hbounds _ _ _, hread _,
    fun setting ↦ hquery setting query hsort _ _ (Inquiry.yields_run _ _), hnames, htop,
    htrans _ _ _ htop hnames⟩

end Representation

end Taxonomy
