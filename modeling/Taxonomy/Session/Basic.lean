import Taxonomy.Representation.Outline
import Taxonomy.Session.Command

/-!
# Sessions

A session holds representations in named slots, hooks, visited sets that walks share, the present
configuration and configurations kept for later, and the limit on thresholds. Performing a command
gives a reply, the session afterwards, and the journal of what happened. `execute` turns the journal
into the lines that are written and the questions that hooks were asked.

The limit plays no part in performing a command: it only selects lines afterwards.
-/

namespace Taxonomy

/-- What commands act on. -/
structure Session where
  slots : FinMap Slot Representation := ∅
  hooks : FinMap HookId Hook := ∅
  visited : FinMap String (FinSet Ty) := ∅
  kept : FinMap String Config := ∅
  config : Config := {}
  /-- Records with a greater threshold are not written. -/
  limit : Nat := 3

namespace Session

/-- The setting in which queries are resolved. -/
def setting (s : Session) : Setting := ⟨s.config, fun id ↦ s.hooks.getD id .bare⟩

/-- Puts a representation into a slot. -/
def put (s : Session) (slot : Slot) (r : Representation) : Session :=
  { s with slots := s.slots.insert slot r }

/-- The hierarchy in a slot. -/
def hierarchy? (s : Session) (slot : Slot) : Option Hierarchy :=
  (s.slots.get? slot).map Representation.hierarchy

/-- Goes on with the representation in a slot, if there is one. -/
def withSlot (s : Session) (slot : Slot)
    (perform : Representation → Journaled (Reply × Session)) : Journaled (Reply × Session) :=
  match s.slots.get? slot with
  | some r => perform r
  | none => return (.missing slot, s)

/-- Puts a new representation into a slot; the reply is its structure. -/
def build (s : Session) (slot : Slot) (r : Representation) : Reply × Session :=
  (.state r.hierarchy, s.put slot r)

/-- Serves a request to the hierarchy in a slot. A request for a previous value is answered by it,
every other by the structure. -/
def serve (s : Session) (slot : Slot) (r : Representation) (request : Request Hierarchy) :
    Journaled (Reply × Session) := do
  let (h, outcome) ← r.hierarchy.serve s.config.spelling request
  let reply := match outcome with
    | .done => Reply.state h
    | .previous value => .attributeValue value
    | .refused conflict => .conflict conflict
  return (reply, s.put slot (r.withHierarchy h))

/-- Walks the hierarchy in a slot, adding to the visited set if one is named. -/
def walk (s : Session) (h : Hierarchy) (plan : Plan) (visited : Option String) (halt : Halt) :
    Reply × Session :=
  match visited with
  | none => (.walk (h.walk plan halt.visitor) false, s)
  | some name =>
    let walk := h.walk { plan with visited := s.visited.getD name ∅ } halt.visitor
    (.walk walk true, { s with visited := s.visited.insert name walk.visited })

/-- Performs a command. -/
def perform (s : Session) : Command → Journaled (Reply × Session)
  | .create slot root => return s.build slot (.plain (.new root))
  | .copy slot target => s.withSlot slot fun r ↦ return s.build target r
  | .compile slot target scope => s.withSlot slot fun r ↦
    return s.build target (.compiled { hierarchy := r.hierarchy, scope := scope.map .named })
  | .memoize slot target capacity => s.withSlot slot fun r ↦
    return { s with slots := s.slots.erase slot }.build target
      (r.memoize (capacity.getD s.config.memoCapacity))
  | .unwrap slot target => s.withSlot slot fun r ↦
    return { s with slots := s.slots.erase slot }.build target r.unwrap
  | .request slot request => s.withSlot slot fun r ↦
    match request.resolve s.hierarchy? with
    | some request => s.serve slot r request
    | none => return (.missing slot, s)
  | .addAll slot types => s.withSlot slot fun r ↦ do
    let h ← r.hierarchy.addAll s.config.spelling types
    return (.extent h.generation h.size, s.put slot (r.withHierarchy h))
  | .overwrite slot source => s.withSlot slot fun r ↦
    match s.hierarchy? source with
    | some h => return s.build slot (r.withHierarchy h)
    | none => return (.missing source, s)
  | .setCompiled slot on => s.withSlot slot fun r ↦
    let r := r.setCompiled on
    return (.flag r.isCompiled, s.put slot r)
  | .isCompiled slot => s.withSlot slot fun r ↦ return (.flag r.isCompiled, s)
  | .refresh slot => s.withSlot slot fun r ↦ do
    let (_, r) ← r.compile
    return (.flag r.isCompiled, s.put slot r)
  | .width slot => s.withSlot slot fun r ↦ do
    match ← r.compile with
    | (some width, r) => return (.number width, s.put slot r)
    | (none, _) => return (.missing slot, s)
  | .scope slot => s.withSlot slot fun r ↦
    return (match r.core? with
      | some c => .optionalType c.scope
      | none => .missing slot, s)
  | .clearMemo slot => s.withSlot slot fun r ↦ return (.nothing, s.put slot r.clearMemo)
  | .statistics slot => s.withSlot slot fun r ↦
    return (match r.memo? with
      | some memo => .statistics memo
      | none => .missing slot, s)
  | .read slot reading => s.withSlot slot fun r ↦ return (r.hierarchy.read reading, s)
  | .outline slot => s.withSlot slot fun r ↦ return (.text (r.outline s.config.spelling), s)
  | .same slot other => s.withSlot slot fun r ↦
    match s.hierarchy? other with
    | some h => return (.flag (r.hierarchy.sameAs h), s)
    | none => return (.missing other, s)
  | .query slot query => s.withSlot slot fun r ↦ do
    let (reply, r) ← (query.inquire s.setting r.hierarchy).run r
    return (reply, s.put slot r)
  | .walk slot plan visited halt => s.withSlot slot fun r ↦
    return s.walk r.hierarchy plan visited halt
  | .relates r left right change =>
    (fun holds ↦ (.flag holds, s)) <$>
      ({ s.setting with config := change.apply {} } : Setting).relates r left right
  | .boundsOf b left right change =>
    (fun types ↦ (.types types, s)) <$>
      ({ s.setting with config := change.apply {} } : Setting).bounds b left right
  | .defineHook id hook =>
    return (.text hook.description, { s with hooks := s.hooks.insert id hook })
  | .configure change =>
    let config := change.apply s.config
    return (.config config, { s with config })
  | .readConfig => return (.config s.config, s)
  | .keepConfig name => return (.nothing, { s with kept := s.kept.insert name s.config })
  | .readKept name =>
    return (match s.kept.get? name with
      | some config => .config config
      | none => .missing name, s)
  | .setLimit limit => return (.number limit, { s with limit })
  | .readLimit => return (.number s.limit, s)
  | .record _ => return (.nothing, s)

/-! ## What is written -/

/-- The text of an operand in a session. -/
def render (s : Session) (operand : Operand) : String :=
  operand.render s.config.spelling fun id ↦ (s.setting.hooks id).description

/-- The record of an event, if it is a notice. -/
def record? (s : Session) : Event → Option Record
  | .noticed notice =>
    some (.ofNotice s.config.spelling (fun id ↦ (s.setting.hooks id).description) notice)
  | .asked .. => none

/-- The text of an event, if it is a question to a hook that has anything to ask. -/
def question? (s : Session) : Event → Option String
  | .asked id operation other =>
    if (s.setting.hooks id).listens then
      some (id ++ "." ++ operation.name ++ "(" ++ s.render other ++ ")")
    else none
  | .noticed _ => none

/-- What executing a command comes to. -/
structure Execution where
  reply : Reply
  /-- The lines written. -/
  lines : List String
  /-- The questions that hooks were asked. -/
  questions : List String
  session : Session

/-- The records of a command: its notices, and the record it asks to be written. -/
def records (s : Session) (events : List Event) : Command → List Record
  | .record record => events.filterMap s.record? ++ [record]
  | _ => events.filterMap s.record?

/-- Performs a command and writes what there is to be written. -/
def execute (s : Session) (command : Command) : Execution :=
  let performed := s.perform command
  { reply := performed.value.1
    lines := Record.lines s.limit (s.records performed.events command)
    questions := performed.events.filterMap s.question?
    session := performed.value.2 }

end Session

end Taxonomy
