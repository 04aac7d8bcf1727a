import Taxonomy.Hook
import Taxonomy.Report.Record
import Taxonomy.Session.Query
import Taxonomy.Session.Reading

/-!
# Commands

A session is driven by commands. They name representations by *slots*; visited sets, hooks and kept
configurations have names of their own.
-/

namespace Taxonomy

/-- The name of a representation. -/
abbrev Slot := String

/-- When a walk is to halt. Any of the conditions given is enough. -/
structure Halt where
  /-- At this type. -/
  type : Option Ty := none
  /-- At this depth or deeper. -/
  depth : Option Nat := none
  /-- At the visit of this number, counted from one. -/
  count : Option Nat := none

/-- The visitor that halts as told. -/
def Halt.visitor (halt : Halt) : Visitor Stop := fun past now ↦
  if halt.type.any (· = now.type) || halt.depth.any (· ≤ now.depth)
      || halt.count.any (· = past.length + 1) then
    some (now.type, now.depth)
  else none

/-- Changes to a configuration; what is not given stays. -/
structure ConfigChange where
  /-- Whether to start from the default configuration. -/
  fresh : Bool := false
  consultHooks : Option Bool := none
  verbosity : Option Verbosity := none
  top : Option String := none
  undefined : Option String := none
  memoCapacity : Option Nat := none

/-- Changes a configuration. -/
def ConfigChange.apply (change : ConfigChange) (config : Config) : Config :=
  let base : Config := if change.fresh then {} else config
  { consultHooks := change.consultHooks.getD base.consultHooks
    verbosity := change.verbosity.getD base.verbosity
    spelling :=
      { top := change.top.getD base.spelling.top
        undefined := change.undefined.getD base.spelling.undefined }
    memoCapacity := change.memoCapacity.getD base.memoCapacity }

/-- What a session can be told to do. -/
inductive Command where
  /-- Makes a hierarchy that has a root alone. -/
  | create (slot : Slot) (root : String)
  /-- Copies a representation. -/
  | copy (slot target : Slot)
  /-- Makes a compiled hierarchy of a copy of the hierarchy in a slot. -/
  | compile (slot target : Slot) (scope : Option String)
  /-- Moves a representation into a memo. -/
  | memoize (slot target : Slot) (capacity : Option Nat)
  /-- Moves a representation out of its outermost layer. -/
  | unwrap (slot target : Slot)
  | request (slot : Slot) (request : Request Slot)
  /-- Adds types one after another. -/
  | addAll (slot : Slot) (types : List (String × List String))
  /-- Puts a copy of another hierarchy in place, generation included. -/
  | overwrite (slot source : Slot)
  | setCompiled (slot : Slot) (on : Bool)
  | isCompiled (slot : Slot)
  /-- Makes rows now. -/
  | refresh (slot : Slot)
  /-- Asks for the width of the rows. -/
  | width (slot : Slot)
  | scope (slot : Slot)
  | clearMemo (slot : Slot)
  | statistics (slot : Slot)
  | read (slot : Slot) (reading : Reading)
  | outline (slot : Slot)
  | same (slot other : Slot)
  | query (slot : Slot) (query : Query)
  /-- Walks; a name given for the visited set makes walks share it. -/
  | walk (slot : Slot) (plan : Plan) (visited : Option String) (halt : Halt)
  /-- Decides a relation from the operands alone, under a configuration of its own. -/
  | relates (r : Relation) (left right : Operand) (change : ConfigChange)
  /-- Finds the bounds from the operands alone, under a configuration of its own. -/
  | boundsOf (b : Bound) (left right : Operand) (change : ConfigChange)
  | defineHook (id : HookId) (hook : Hook)
  | configure (change : ConfigChange)
  | readConfig
  /-- Keeps the present configuration under a name. -/
  | keepConfig (name : String)
  | readKept (name : String)
  /-- Sets the limit on thresholds. -/
  | setLimit (limit : Nat)
  | readLimit
  /-- Writes a record. -/
  | record (record : Record)

end Taxonomy
