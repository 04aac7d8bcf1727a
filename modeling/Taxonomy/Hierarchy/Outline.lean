import Taxonomy.Hierarchy.Basic
import Taxonomy.Config
import Taxonomy.Text.Separated

/-!
# Outlines

The outline of a hierarchy is its text for people to read: one line for each type but the root with
its parents, and the annotations. Lists that would be empty are left out.
-/

namespace Taxonomy.Hierarchy

/-- A named list over several lines, or nothing if it is empty. -/
def outlineList (name : String) : List String → List String
  | [] => []
  | items => ["  " ++ name ++ ": ["] ++ items.map ("    " ++ ·) ++ ["  ]"]

/-- The lines of an outline. -/
def outlineLines (spelling : Spelling) (h : Hierarchy) : List String :=
  let types := (h.types.erase h.root).toList.map fun t ↦
    spelling.render t ++ ": "
      ++ Text.separated ", " ((h.parentsOf t).toList.map spelling.render)
  let attributes := h.annotations.entries.map fun (t, attributes) ↦
    spelling.render t ++ ": " ++ attributes.display
  let own := if h.ownAttributes.isEmpty then []
    else ["  hierarchy attributes: " ++ h.ownAttributes.display]
  ["Hierarchy \x7b", "  root: " ++ spelling.render h.root, "  generation: " ++ h.generation.repr]
    ++ outlineList "types" types ++ outlineList "attributes" attributes ++ own ++ ["\x7d"]

/-- The outline of a hierarchy; each line ends with a line break. -/
def outline (spelling : Spelling) (h : Hierarchy) : String :=
  String.join ((h.outlineLines spelling).map (· ++ "\n"))

end Taxonomy.Hierarchy
