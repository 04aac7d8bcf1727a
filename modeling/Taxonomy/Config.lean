import Taxonomy.Ty

/-!
# Configuration

What the algebra may be told: whether hooks are consulted, how much an ambiguity report says, how
the reserved values are spelled, and how many bounds a memo keeps. Operations take the
configuration as an argument; nothing is global.
-/

namespace Taxonomy

/-- How much detail the report of an ambiguous fold carries. -/
inductive Verbosity where
  | silent
  /-- Name the operation and the two operands. -/
  | warn
  /-- Also list every candidate and everything that was being folded. -/
  | context
deriving DecidableEq, Inhabited

/-- The spelling of the two reserved values. -/
structure Spelling where
  top : String := "TOP"
  undefined : String := "UNDEFINED"
deriving DecidableEq, Inhabited

namespace Spelling

/-- Whether a name is spelled like a reserved value. -/
def reserves (s : Spelling) (name : String) : Bool := name = s.top || name = s.undefined

/-- The text of a type. -/
def render (s : Spelling) : Ty → String
  | .top => s.top
  | .undefined => s.undefined
  | .named name => name

/-- Reads a type from its text. -/
def parse (s : Spelling) (text : String) : Ty :=
  if text = s.top then .top
  else if text = s.undefined then .undefined
  else .named text

/-- A name that is no reserved spelling reads back as itself. -/
theorem parse_render_named {s : Spelling} {name : String} (h : s.reserves name = false) :
    s.parse (s.render (.named name)) = .named name := by
  simp only [reserves, Bool.or_eq_false_iff, decide_eq_false_iff_not] at h
  rw [render, parse, if_neg h.1, if_neg h.2]

end Spelling

/-- The settings of the algebra. -/
structure Config where
  /-- Whether hook operands are asked before the hierarchy. -/
  consultHooks : Bool := true
  verbosity : Verbosity := .warn
  spelling : Spelling := {}
  /-- The capacity of a memo that is not given one. -/
  memoCapacity : Nat := 4096
deriving DecidableEq, Inhabited

end Taxonomy
