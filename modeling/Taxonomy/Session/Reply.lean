import Taxonomy.Config
import Taxonomy.Hierarchy.Request
import Taxonomy.Representation.Memo

/-!
# Replies

What a command of a session comes to.
-/

namespace Taxonomy

/-- A walk halts with the type it halted at and the depth of the visit. -/
abbrev Stop := Ty × Nat

/-- What a command comes to. -/
inductive Reply where
  | nothing
  | flag (holds : Bool)
  | number (n : Nat)
  | text (text : String)
  | type (t : Ty)
  | optionalType (t : Option Ty)
  | types (types : List Ty)
  | pair (pair : Option (Ty × Ty))
  | strata (strata : List (List Ty))
  | comparison (order : Option Ordering)
  | flagTable (rows : List (List Bool))
  | boundsTable (rows : List (List (List Ty)))
  | comparisonTable (rows : List (List (Option Ordering)))
  /-- The structure of a hierarchy. -/
  | state (h : Hierarchy)
  /-- Everything about a hierarchy. -/
  | everything (h : Hierarchy)
  /-- The generation and the size of a hierarchy. -/
  | extent (generation size : Nat)
  | attributeValue (value : Option Attribute)
  | attributes (attributes : Option Attributes)
  | conflict (conflict : Conflict)
  | walk (walk : Walk Stop) (shared : Bool)
  | statistics (memo : Memo)
  | config (config : Config)
  /-- The command refers to something that the session does not have. -/
  | missing (name : String)

end Taxonomy
