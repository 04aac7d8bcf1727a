import Taxonomy.Proofs.Representation.Ascending
import Taxonomy.Proofs.Session.Diagnostics

/-!
# Sessions reply in ascending order

The representations that a session holds come about in no other way than `Representation.Built`
allows, whatever the commands (`Session.built_after`). So whatever a session is told to do, the sets
in its reply are in presentation order (`Session.replies_presented`). The one exception is a
sorting, which is a list and not a set.
-/

namespace Taxonomy

namespace Session

variable {s : Session} {command : Command} {slot : Slot} {r : Representation}

/-- All representations have been built. -/
def Built (s : Session) : Prop := ∀ slot r, s.slots.get? slot = some r → r.Built

namespace Built

theorem put (hs : s.Built) (slot : Slot) (hr : r.Built) : (s.put slot r).Built := by
  intro slot' r' hslot
  rw [Session.put, FinMap.get?_insert] at hslot
  split at hslot
  · obtain rfl := Option.some.inj hslot
    exact hr
  · exact hs slot' r' hslot

theorem erase (hs : s.Built) (slot : Slot) : { s with slots := s.slots.erase slot }.Built := by
  intro slot' r' hslot
  rw [FinMap.get?_erase] at hslot
  split at hslot
  · cases hslot
  · exact hs slot' r' hslot

end Built

/-- A command comes to a reply in order, unless it asks for a sorting, and leaves a session all of
whose representations have been built. -/
structure Orderly (command : Command) (performed : Reply × Session) : Prop where
  reply : (∀ slot types, command ≠ .query slot (.subsort types)) → performed.1.Presented
  session : performed.2.Built

namespace Orderly

/-- A reply without any sets is in order. -/
theorem of_sets_eq_nil {reply : Reply} (hs : s.Built) (hreply : reply.sets = []) :
    Orderly command (reply, s) := by
  refine ⟨fun _ types htypes ↦ ?_, hs⟩
  rw [hreply] at htypes
  cases htypes

theorem withSlot (hs : s.Built) {f : Representation → Journaled (Reply × Session)}
    (hf : ∀ r, r.Built → Orderly command (f r).value) :
    Orderly command (s.withSlot slot f).value := by
  rw [Session.withSlot]
  split
  · rename_i r hslot
    exact hf r (hs slot r hslot)
  · exact of_sets_eq_nil hs rfl

end Orderly

/-- **Every command is served in order.** -/
theorem Built.perform (hs : s.Built) (command : Command) :
    Orderly command (s.perform command).value := by
  cases command with
  | create slot root => exact .of_sets_eq_nil (hs.put slot (.plain _)) rfl
  | copy slot target => exact .withSlot hs fun r hr ↦ .of_sets_eq_nil (hs.put target hr) rfl
  | compile slot target scope =>
    exact .withSlot hs fun r _ ↦ .of_sets_eq_nil (hs.put target (.compiled _ _)) rfl
  | memoize slot target capacity =>
    exact .withSlot hs fun r hr ↦ .of_sets_eq_nil ((hs.erase slot).put target (hr.memoize _)) rfl
  | unwrap slot target =>
    exact .withSlot hs fun r hr ↦ .of_sets_eq_nil ((hs.erase slot).put target hr.unwrap) rfl
  | request slot request =>
    refine .withSlot hs fun r hr ↦ ?_
    split
    · refine .of_sets_eq_nil (hs.put slot (hr.withHierarchy _)) ?_
      split <;> rfl
    · exact .of_sets_eq_nil hs rfl
  | addAll slot types =>
    exact .withSlot hs fun r hr ↦ .of_sets_eq_nil (hs.put slot (hr.withHierarchy _)) rfl
  | overwrite slot source =>
    refine .withSlot hs fun r hr ↦ ?_
    split
    · exact .of_sets_eq_nil (hs.put slot (hr.withHierarchy _)) rfl
    · exact .of_sets_eq_nil hs rfl
  | setCompiled slot on =>
    exact .withSlot hs fun r hr ↦ .of_sets_eq_nil (hs.put slot (hr.setCompiled on)) rfl
  | refresh slot =>
    exact .withSlot hs fun r hr ↦ .of_sets_eq_nil (hs.put slot hr.compile) rfl
  | width slot =>
    refine .withSlot hs fun r hr ↦ ?_
    have hcompile := hr.compile
    rw [Journaled.value_bind]
    rcases hvalue : r.compile.value with ⟨_ | width, r'⟩
    · exact .of_sets_eq_nil hs rfl
    · rw [hvalue] at hcompile
      exact .of_sets_eq_nil (hs.put slot hcompile) rfl
  | scope slot =>
    refine .withSlot hs fun r _ ↦ .of_sets_eq_nil hs ?_
    split <;> rfl
  | clearMemo slot =>
    exact .withSlot hs fun r hr ↦ .of_sets_eq_nil (hs.put slot hr.clearMemo) rfl
  | statistics slot =>
    refine .withSlot hs fun r _ ↦ .of_sets_eq_nil hs ?_
    split <;> rfl
  | read slot reading =>
    exact .withSlot hs fun r _ ↦ ⟨fun _ ↦ r.hierarchy.presented_read reading, hs⟩
  | same slot other =>
    refine .withSlot hs fun r _ ↦ ?_
    split
    · exact .of_sets_eq_nil hs rfl
    · exact .of_sets_eq_nil hs rfl
  | query slot query =>
    refine .withSlot hs fun r hr ↦ ?_
    have hy := Inquiry.yields_run (query.inquire s.setting r.hierarchy) r
    refine ⟨fun hsort ↦ ?_, hs.put slot (hr.ask hy)⟩
    have hquery : ∀ types, query ≠ .subsort types :=
      fun types heq ↦ hsort slot types (congrArg (Command.query slot) heq)
    exact (hr.tidy.yields (query.ensures_inquire hquery) hy).1
  | walk slot plan visited halt =>
    refine .withSlot hs fun r _ ↦ ?_
    cases visited with
    | none => exact .of_sets_eq_nil hs rfl
    | some name => exact .of_sets_eq_nil hs rfl
  | boundsOf b left right change =>
    exact ⟨fun _ ↦ Reply.presented_types (Setting.ascending_bounds _ b left right), hs⟩
  | readKept name =>
    refine .of_sets_eq_nil hs ?_
    split <;> rfl
  | isCompiled slot | outline slot =>
    exact .withSlot hs fun r _ ↦ .of_sets_eq_nil hs rfl
  | relates | defineHook | configure | readConfig | keepConfig | setLimit | readLimit | record =>
    exact .of_sets_eq_nil hs rfl

/-- Whatever the commands, a session holds nothing that has not been built. -/
theorem built_after (commands : List Command) : (({} : Session).after commands).Built := by
  have hrun : ∀ s : Session, s.Built → (s.after commands).Built := by
    induction commands with
    | nil => exact fun s hs ↦ hs
    | cons command rest ih => exact fun s hs ↦ ih _ (hs.perform command).session
  refine hrun {} fun slot r hslot ↦ ?_
  rw [FinMap.get?_empty] at hslot
  cases hslot

/-- **Sessions reply in order**, whatever they have been told before. -/
theorem replies_presented (commands : List Command) (command : Command)
    (hsort : ∀ slot types, command ≠ .query slot (.subsort types)) :
    ((({} : Session).after commands).execute command).reply.Presented :=
  ((built_after commands).perform command).reply hsort

end Session

end Taxonomy
