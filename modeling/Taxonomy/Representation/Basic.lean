import Taxonomy.Representation.Compiled
import Taxonomy.Representation.Memo

/-!
# Representations

A hierarchy is represented by itself, by a compiled hierarchy, or by a memo around another
representation. Representations differ in the way they look up subsumption and bounds of members,
and in nothing else. Looking up may change a representation, because rows are made and memos are
filled on the way.
-/

namespace Taxonomy

/-- A hierarchy in a form that answers look-ups. -/
inductive Representation where
  | plain (hierarchy : Hierarchy)
  | compiled (compiled : Compiled)
  | memoized (memo : Memo) (inner : Representation)
deriving DecidableEq

namespace Representation

/-- The hierarchy that is represented. -/
def hierarchy : Representation → Hierarchy
  | plain h => h
  | compiled c => c.hierarchy
  | memoized _ inner => inner.hierarchy

/-- Puts another hierarchy in place; derived state is left as it is. -/
def withHierarchy (h : Hierarchy) : Representation → Representation
  | plain _ => plain h
  | compiled c => compiled { c with hierarchy := h }
  | memoized memo inner => memoized memo (inner.withHierarchy h)

/-- Whether `general` subsumes `specific`. -/
def lookUpSubsumes : Representation → Ty → Ty → Journaled (Bool × Representation)
  | plain h, general, specific => return (h.subsumes general specific, plain h)
  | compiled c, general, specific => do
    let (holds, c) ← c.lookUpSubsumes general specific
    return (holds, compiled c)
  | memoized memo inner, general, specific => do
    let (holds, inner) ← inner.lookUpSubsumes general specific
    return (holds, memoized memo inner)

/-- The bounds of two types. -/
def lookUpBounds : Representation → Bound → Ty → Ty → Journaled (List Ty × Representation)
  | plain h, b, left, right => return ((h.bounds b left right).toList, plain h)
  | compiled c, b, left, right => do
    let (bounds, c) ← c.lookUpBounds b left right
    return (bounds, compiled c)
  | memoized memo inner, b, left, right => do
    let memo ← memo.refresh inner.hierarchy.generation
    let key := MemoKey.of b left right
    match memo.find? key with
    | some bounds => return (bounds, memoized (memo.hit key bounds) inner)
    | none =>
      let (bounds, inner) ← inner.lookUpBounds b left right
      return (bounds, memoized (memo.miss.put key bounds) inner)

/-! ## Compilation -/

/-- The compiled hierarchy at the core of a representation. -/
def core? : Representation → Option Compiled
  | plain _ => none
  | compiled c => some c
  | memoized _ inner => inner.core?

/-- Whether look-ups may use rows. -/
def isCompiled (r : Representation) : Bool := r.core?.any Compiled.enabled

/-- Changes the compiled hierarchy at the core, if there is one. -/
def mapCore (f : Compiled → Compiled) : Representation → Representation
  | plain h => plain h
  | compiled c => compiled (f c)
  | memoized memo inner => memoized memo (inner.mapCore f)

/-- Switches compilation on or off. -/
def setCompiled (on : Bool) (r : Representation) : Representation := r.mapCore (·.setEnabled on)

/-- Makes the rows now rather than when they are needed, and gives their width. -/
def compile : Representation → Journaled (Option Nat × Representation)
  | plain h => return (none, plain h)
  | compiled c => do
    let (width, c) ← c.width
    return (some width, compiled c)
  | memoized memo inner => do
    let (width, inner) ← inner.compile
    return (width, memoized memo inner)

/-- A representation with a memo of its own around it. -/
def memoize (capacity : Nat) (r : Representation) : Representation :=
  memoized { capacity, generation := r.hierarchy.generation } r

/-- Forgets what the outermost memo remembers. -/
def clearMemo : Representation → Representation
  | memoized memo inner => memoized memo.clear inner
  | r => r

/-- The outermost memo. -/
def memo? : Representation → Option Memo
  | memoized memo _ => some memo
  | _ => none

/-- The representation inside the outermost layer. -/
def unwrap : Representation → Representation
  | plain h => plain h
  | compiled c => plain c.hierarchy
  | memoized _ inner => inner

end Representation

end Taxonomy
