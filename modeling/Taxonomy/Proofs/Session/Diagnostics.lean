import Mathlib.Data.List.Basic
import Mathlib.Data.List.Flatten
import Taxonomy.Proofs.Representation.Course
import Taxonomy.Session.Basic

/-!
# Diagnostics have no effect

The verbosity decides what is reported of an ambiguous fold, and the limit which lines are written.
Neither has any part in what commands come to: two sessions that differ in them alone reply alike to
every command, ask hooks the same and become sessions that again differ in them alone
(`Session.Twin.execute`), and so it goes for any number of commands
(`Session.diagnostics_have_no_effect`). If only the limit is lower, some lines are missing.

The verbosity reaches a fold, and so the middle of an inquiry. But inquiries that are the same but
for their notices (`Inquiry.hushed`) come to the same and leave representations the same.
-/

namespace Taxonomy

variable {α β : Type}

/-! ## Verbosity -/

/-- A configuration without its verbosity. -/
def Config.muted (config : Config) : Config := { config with verbosity := .silent }

theorem Config.exists_verbosity {config config' : Config} (hconfig : config.muted = config'.muted) :
    ∃ verbosity, config' = { config with verbosity } := by
  obtain ⟨on, verbosity, spelling, capacity⟩ := config
  obtain ⟨on', verbosity', spelling', capacity'⟩ := config'
  cases hconfig
  exact ⟨verbosity', rfl⟩

/-- Only folds look at the verbosity. -/
theorem Query.hushed_inquire (query : Query) (h : Hierarchy) {config config' : Config}
    (hooks : Hooks) (hconfig : config.muted = config'.muted) :
    (query.inquire ⟨config, hooks⟩ h).hushed = (query.inquire ⟨config', hooks⟩ h).hushed := by
  obtain ⟨verbosity, rfl⟩ := Config.exists_verbosity hconfig
  cases query with
  | fold b operands =>
    rw [inquire, inquire, Inquiry.hushed_map, Inquiry.hushed_map]
    exact congrArg (Reply.type <$> ·) (Hierarchy.hushed_foldBounds ..)
  | foldTypes b types =>
    rw [inquire, inquire, Inquiry.hushed_map, Inquiry.hushed_map]
    exact congrArg (Reply.type <$> ·) (Hierarchy.hushed_foldBounds ..)
  | _ => rfl

/-- A change to a configuration sets the verbosity or leaves it as it is. -/
theorem ConfigChange.muted_apply (change : ConfigChange) {config config' : Config}
    (hconfig : config.muted = config'.muted) :
    (change.apply config).muted = (change.apply config').muted := by
  obtain ⟨verbosity, rfl⟩ := Config.exists_verbosity hconfig
  rw [apply, apply]
  cases change.fresh <;> rfl

/-! ## Sessions -/

/-- Whether the reply shows the limit or a configuration. -/
def Command.readsBack : Command → Bool
  | configure _ | readConfig | readKept _ | readLimit => true
  | _ => false

namespace Session

variable {s s' : Session} {louder : Prop} {reads : Bool} {slot : Slot} {command : Command}

/-- Two sessions that differ in their diagnostics alone. -/
structure Alike (s s' : Session) : Prop where
  slots : s.slots = s'.slots
  hooks : s.hooks = s'.hooks
  visited : s.visited = s'.visited
  kept : ∀ name, (s.kept.get? name).map Config.muted = (s'.kept.get? name).map Config.muted
  config : s.config.muted = s'.config.muted

/-- Two sessions that differ in their diagnostics alone; if `louder`, they differ in the limit
alone, and that of the second one is no less. -/
structure Twin (louder : Prop) (s s' : Session) : Prop extends s.Alike s' where
  louder : louder → s.config = s'.config ∧ s.kept = s'.kept ∧ s.limit ≤ s'.limit

/-- What two sessions perform comes to the same, unless it `reads` the diagnostics, and leaves
twins. -/
structure Parallel (louder : Prop) (reads : Bool) (x x' : Journaled (Reply × Session)) : Prop where
  reply : reads = false → x.value.1 = x'.value.1
  session : x.value.2.Twin louder x'.value.2
  questions : x.questions = x'.questions
  events : louder → x.events = x'.events

namespace Twin

theorem spelling (ht : s.Twin louder s') : s.config.spelling = s'.config.spelling :=
  congrArg (·.spelling) ht.config

theorem memoCapacity (ht : s.Twin louder s') : s.config.memoCapacity = s'.config.memoCapacity :=
  congrArg (·.memoCapacity) ht.config

theorem hierarchy?_eq (ht : s.Twin louder s') : s.hierarchy? = s'.hierarchy? := by
  funext slot
  rw [hierarchy?, hierarchy?, ht.slots]

theorem hooks_setting (ht : s.Twin louder s') : s.setting.hooks = s'.setting.hooks := by
  funext id
  rw [setting, setting, ht.hooks]

theorem put (ht : s.Twin louder s') (slot : Slot) (r : Representation) :
    (s.put slot r).Twin louder (s'.put slot r) :=
  { ht with slots := congrArg (·.insert slot r) ht.slots }

theorem erase (ht : s.Twin louder s') (slot : Slot) :
    ({ s with slots := s.slots.erase slot } : Session).Twin louder
      { s' with slots := s'.slots.erase slot } :=
  { ht with slots := congrArg (·.erase slot) ht.slots }

theorem withVisited (ht : s.Twin louder s') (visited : FinMap String (FinSet Ty)) :
    ({ s with visited } : Session).Twin louder { s' with visited } := { ht with visited := rfl }

theorem withHooks (ht : s.Twin louder s') (hooks : FinMap HookId Hook) :
    ({ s with hooks } : Session).Twin louder { s' with hooks } := { ht with hooks := rfl }

theorem withLimit (ht : s.Twin louder s') (limit : Nat) :
    ({ s with limit } : Session).Twin louder { s' with limit } where
  toAlike := { ht with }
  louder hlouder := by
    obtain ⟨hconfig, hkept, -⟩ := ht.louder hlouder
    exact ⟨hconfig, hkept, Nat.le_refl limit⟩

theorem configure (ht : s.Twin louder s') (change : ConfigChange) :
    ({ s with config := change.apply s.config } : Session).Twin louder
      { s' with config := change.apply s'.config } where
  toAlike := { ht with config := change.muted_apply ht.config }
  louder hlouder := by
    obtain ⟨hconfig, hkept, hlimit⟩ := ht.louder hlouder
    exact ⟨congrArg change.apply hconfig, hkept, hlimit⟩

theorem keepConfig (ht : s.Twin louder s') (name : String) :
    ({ s with kept := s.kept.insert name s.config } : Session).Twin louder
      { s' with kept := s'.kept.insert name s'.config } where
  toAlike :=
    { ht with
      kept name' := by
        rw [FinMap.get?_insert, FinMap.get?_insert]
        split
        · exact congrArg some ht.config
        · exact ht.kept name' }
  louder hlouder := by
    obtain ⟨hconfig, hkept, hlimit⟩ := ht.louder hlouder
    exact ⟨hconfig, by rw [hconfig, hkept], hlimit⟩

end Twin

namespace Parallel

theorem reading (ht : s.Twin louder s') (reply reply' : Reply) :
    Parallel louder true (Pure.pure (reply, s)) (Pure.pure (reply', s')) :=
  ⟨nofun, ht, rfl, fun _ ↦ rfl⟩

/-- The reports of a query may differ, but not if the verbosity is the same. -/
theorem query (ht : s.Twin louder s') (slot : Slot) (query : Query) (r : Representation) :
    Parallel louder reads
      (do
        let (reply, r) ← (query.inquire s.setting r.hierarchy).run r
        return (reply, s.put slot r))
      (do
        let (reply, r) ← (query.inquire s'.setting r.hierarchy).run r
        return (reply, s'.put slot r)) := by
  have hsetting : s'.setting = ⟨s'.config, s.setting.hooks⟩ := by
    rw [ht.hooks_setting]
    rfl
  obtain ⟨hvalue, hquestions⟩ := Inquiry.run_eq_of_hushed_eq
    (query.hushed_inquire r.hierarchy s.setting.hooks ht.config) r
  rw [hsetting]
  have hreply := congrArg Prod.fst hvalue
  constructor
  case reply => exact fun _ ↦ hreply
  case session =>
    simp only [Journaled.value_bind, ← hvalue]
    exact ht.put slot _
  case questions =>
    simp only [Journaled.questions_bind]
    exact congrArg (· ++ []) hquestions
  case events =>
    intro hlouder
    rw [← (ht.louder hlouder).1]
    rfl

theorem pure (ht : s.Twin louder s') (reply : Reply) :
    Parallel louder reads (Pure.pure (reply, s)) (Pure.pure (reply, s')) :=
  ⟨fun _ ↦ rfl, ht, rfl, fun _ ↦ rfl⟩

theorem bind {x : Journaled α} {f f' : α → Journaled (Reply × Session)}
    (hf : Parallel louder reads (f x.value) (f' x.value)) :
    Parallel louder reads (x >>= f) (x >>= f') where
  reply := hf.reply
  session := hf.session
  questions := by rw [Journaled.questions_bind, Journaled.questions_bind, hf.questions]
  events hlouder := congrArg (x.events ++ ·) (hf.events hlouder)

theorem withSlot (ht : s.Twin louder s') {f f' : Representation → Journaled (Reply × Session)}
    (hf : ∀ r, Parallel louder reads (f r) (f' r)) :
    Parallel louder reads (s.withSlot slot f) (s'.withSlot slot f') := by
  rw [Session.withSlot, Session.withSlot, ← ht.slots]
  cases s.slots.get? slot with
  | none => exact .pure ht _
  | some r => exact hf r

end Parallel

/-- **A command does the same in twin sessions**, unless it reads the diagnostics. -/
theorem Twin.perform (ht : s.Twin louder s') (command : Command) :
    Parallel louder command.readsBack (s.perform command) (s'.perform command) := by
  cases command with
  | create slot root => exact .pure (ht.put ..) _
  | copy slot target => exact .withSlot ht fun r ↦ .pure (ht.put ..) _
  | compile slot target scope => exact .withSlot ht fun r ↦ .pure (ht.put ..) _
  | memoize slot target capacity =>
    rw [Session.perform, Session.perform, ht.memoCapacity]
    exact .withSlot ht fun r ↦ .pure ((ht.erase slot).put ..) _
  | unwrap slot target => exact .withSlot ht fun r ↦ .pure ((ht.erase slot).put ..) _
  | request slot request =>
    refine .withSlot ht fun r ↦ ?_
    rw [ht.hierarchy?_eq]
    cases request.resolve s'.hierarchy? with
    | none => exact .pure ht _
    | some request =>
      dsimp only
      rw [serve, serve, ht.spelling]
      exact .bind (.pure (ht.put ..) _)
  | addAll slot types =>
    refine .withSlot ht fun r ↦ ?_
    rw [ht.spelling]
    exact .bind (.pure (ht.put ..) _)
  | overwrite slot source =>
    refine .withSlot ht fun r ↦ ?_
    rw [ht.hierarchy?_eq]
    cases s'.hierarchy? source with
    | none => exact .pure ht _
    | some h => exact .pure (ht.put ..) _
  | setCompiled slot on => exact .withSlot ht fun r ↦ .pure (ht.put ..) _
  | isCompiled slot => exact .withSlot ht fun r ↦ .pure ht _
  | refresh slot => exact .withSlot ht fun r ↦ .bind (.pure (ht.put ..) _)
  | width slot =>
    refine .withSlot ht fun r ↦ .bind ?_
    rcases r.compile.value with ⟨_ | width, r⟩
    · exact .pure ht _
    · exact .pure (ht.put ..) _
  | scope slot => exact .withSlot ht fun r ↦ .pure ht _
  | clearMemo slot => exact .withSlot ht fun r ↦ .pure (ht.put ..) _
  | statistics slot => exact .withSlot ht fun r ↦ .pure ht _
  | read slot reading => exact .withSlot ht fun r ↦ .pure ht _
  | outline slot =>
    refine .withSlot ht fun r ↦ ?_
    rw [ht.spelling]
    exact .pure ht _
  | same slot other =>
    refine .withSlot ht fun r ↦ ?_
    rw [ht.hierarchy?_eq]
    cases s'.hierarchy? other with
    | none => exact .pure ht _
    | some h => exact .pure ht _
  | query slot query => exact .withSlot ht fun r ↦ .query ht slot query r
  | walk slot plan visited halt =>
    refine .withSlot ht fun r ↦ ?_
    cases visited with
    | none => exact .pure ht _
    | some name =>
      rw [Session.walk, Session.walk, ht.visited]
      exact .pure (ht.withVisited _) _
  | relates r left right change =>
    simp only [Session.perform, ht.hooks_setting]
    exact .bind (.pure ht _)
  | boundsOf b left right change =>
    simp only [Session.perform, ht.hooks_setting]
    exact .bind (.pure ht _)
  | defineHook id hook =>
    rw [Session.perform, Session.perform, ht.hooks]
    exact .pure (ht.withHooks _) _
  | configure change => exact .reading (ht.configure change) _ _
  | readConfig => exact .reading ht _ _
  | keepConfig name => exact .pure (ht.keepConfig name) _
  | readKept name => exact .reading ht _ _
  | setLimit limit => exact .pure (ht.withLimit limit) _
  | readLimit => exact .reading ht _ _
  | record record => exact .pure ht _

/-! ## What is written -/

/-- A lower limit leaves lines out. -/
theorem sublist_lines {limit limit' : Nat} (hlimit : limit ≤ limit') (records : List Record) :
    (Record.lines limit records).Sublist (Record.lines limit' records) := by
  refine List.Sublist.flatMap (List.monotone_filter_right records fun record hpasses ↦ ?_) _
  rw [Record.passes_iff] at hpasses ⊢
  exact fun threshold heq ↦ Nat.le_trans (hpasses threshold heq) hlimit

/-- The questions to hooks are written from the questions alone. -/
theorem filterMap_question? (x : Journaled α) :
    x.events.filterMap s.question? = x.questions.filterMap s.question? := by
  rw [Journaled.questions, List.filterMap_filter]
  refine List.filterMap_congr fun event _ ↦ ?_
  cases event <;> rfl

theorem Twin.question?_eq (ht : s.Twin louder s') : s.question? = s'.question? := by
  funext event
  cases event with
  | noticed notice => rfl
  | asked id operation other => simp only [question?, render, ht.hooks_setting, ht.spelling]

theorem Twin.records_eq (ht : s.Twin louder s') : s.records = s'.records := by
  have hrecord : s.record? = s'.record? := by
    funext event
    cases event with
    | noticed notice => simp only [record?, ht.hooks_setting, ht.spelling]
    | asked id operation other => rfl
  funext events command
  cases command <;> simp only [records, hrecord]

/-- Executions come to the same, unless the command `reads` the diagnostics, and leave twins; if
`louder`, no line of the first one is missing from the second. -/
structure Matches (louder : Prop) (reads : Bool) (e e' : Execution) : Prop where
  reply : reads = false → e.reply = e'.reply
  questions : e.questions = e'.questions
  session : e.session.Twin louder e'.session
  lines : louder → e.lines.Sublist e'.lines

/-- What is written is made of what was performed, and texts do not depend on the diagnostics. -/
theorem Twin.execute (ht : s.Twin louder s') (command : Command) :
    Matches louder command.readsBack (s.execute command) (s'.execute command) := by
  have hp := ht.perform command
  constructor
  case reply => exact hp.reply
  case questions =>
    rw [Session.execute, Session.execute, filterMap_question?, filterMap_question?, hp.questions,
      ht.question?_eq]
  case session => exact hp.session
  case lines =>
    intro hlouder
    rw [Session.execute, Session.execute, hp.events hlouder, ht.records_eq]
    exact sublist_lines (ht.louder hlouder).2.2 _

/-! ## Runs -/

/-- Executes commands one after another. -/
def executions (s : Session) : List Command → List (Command × Execution)
  | [] => []
  | command :: rest =>
    (command, s.execute command) :: (s.execute command).session.executions rest

/-- The session after commands. -/
def after (s : Session) (commands : List Command) : Session :=
  commands.foldl (fun s command ↦ (s.execute command).session) s

/-- The replies to commands, except where they read back, and the questions that hooks were asked
meanwhile. -/
def results (s : Session) (commands : List Command) : List (Option Reply × List String) :=
  (s.executions commands).map fun (command, e) ↦
    (if command.readsBack then none else some e.reply, e.questions)

/-- The lines that commands write. -/
def written (s : Session) (commands : List Command) : List String :=
  (s.executions commands).flatMap fun (_, e) ↦ e.lines

/-- Twin sessions remain twins. -/
theorem Twin.run (ht : s.Twin louder s') (commands : List Command) :
    s.results commands = s'.results commands ∧ (s.after commands).Twin louder (s'.after commands) ∧
      (louder → (s.written commands).Sublist (s'.written commands)) := by
  induction commands generalizing s s' with
  | nil => exact ⟨rfl, ht, fun _ ↦ .slnil⟩
  | cons command rest ih =>
    have he := ht.execute command
    obtain ⟨hresults, hafter, hwritten⟩ := ih he.session
    refine ⟨?_, hafter, fun hlouder ↦ (he.lines hlouder).append (hwritten hlouder)⟩
    rw [results, results, executions, executions, List.map_cons, List.map_cons, ← results,
      ← results, hresults]
    dsimp only
    rw [he.questions]
    cases hreads : command.readsBack with
    | true => rfl
    | false => rw [he.reply hreads]

end Session

end Taxonomy
