import Taxonomy.Hierarchy.Outline
import Taxonomy.Representation.Basic

/-!
# Outlines of representations

A representation is outlined as the hierarchy it stands for; a compiled hierarchy says first what it
has compiled.
-/

namespace Taxonomy

/-- A value that may be missing. -/
private def optionally {α : Type} (text : α → String) : Option α → String
  | none => "None"
  | some a => "Some(" ++ text a ++ ")"

/-- The outline of a compiled hierarchy. -/
def Compiled.outline (spelling : Spelling) (c : Compiled) : String :=
  "CompiledHierarchy \x7b enabled: " ++ toString c.enabled ++ ", scope: "
    ++ optionally spelling.render c.scope ++ ", compiled generation: "
    ++ optionally (·.generation.repr) c.rows ++ " \x7d\n" ++ c.hierarchy.outline spelling

/-- The outline of a representation. -/
def Representation.outline (spelling : Spelling) : Representation → String
  | .compiled c => c.outline spelling
  | r => r.hierarchy.outline spelling

end Taxonomy
