/-!
# Sequences with separators

`interleave` puts a separator before every item but the first; the separator may depend on the item
that follows it. `separated` is its use on text.
-/

namespace Taxonomy.Text

/-- The items of a list, each but the first preceded by the separator made from it. -/
def interleave {α : Type} (separator : α → α) : List α → List α
  | [] => []
  | first :: rest => first :: rest.flatMap fun item ↦ [separator item, item]

/-- The items written one after another with `separator` between neighbours. -/
def separated (separator : String) (items : List String) : String :=
  String.join (interleave (fun _ ↦ separator) items)

/-- A list of `n + 1` items gets `n` separators. -/
theorem length_interleave {α : Type} (separator : α → α) (first : α) (rest : List α) :
    (interleave separator (first :: rest)).length = 2 * rest.length + 1 := by
  simp [interleave, List.length_flatMap, List.map_const', Nat.mul_comm]

end Taxonomy.Text
