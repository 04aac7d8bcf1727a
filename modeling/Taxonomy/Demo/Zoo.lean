import Taxonomy.Fold
import Taxonomy.Hierarchy.Edit
import Taxonomy.Ranking
import Taxonomy.Representation.Outline
import Taxonomy.Report.Record

/-!
# A small zoo

The demonstration builds a hierarchy of animals and tells what the algebra says about it, first by
walking, then from compiled rows and through a memo.
-/

namespace Taxonomy.Demo

/-- An operand that answers for itself: it is below every bird. -/
def birdlike : Hook :=
  .predicate (Hook.byRules
    [⟨some [.relation .extending], .exactly (.named "bird"), some (.relation true)⟩])

/-- The default configuration, with one hook. -/
def setting : Setting := ⟨{}, fun _ ↦ birdlike⟩

/-- The limit on thresholds during the demonstration. -/
def limit : Nat := 1

/-- The animals and what they are. -/
def animals : List (String × List String) :=
  [("animal", ["BOTTOM"]), ("bird", ["animal"]), ("mammal", ["animal"]),
    ("bat", ["bird", "mammal"]), ("penguin", ["bird"]), ("cat", ["mammal"])]

/-- The zoo to begin with. -/
def zoo : Hierarchy :=
  ((Hierarchy.new Hierarchy.defaultRoot).addAll setting.config.spelling animals).value

/-- The zoo with another animal that is both bird and mammal, so that bounds are ambiguous. -/
def widerZoo : Hierarchy :=
  (zoo.add setting.config.spelling "platypus" ["bird", "mammal"]).value

def animal : Ty := .named "animal"
def bird : Ty := .named "bird"
def mammal : Ty := .named "mammal"

/-- The text of a type. -/
def name (t : Ty) : String := setting.config.spelling.render t

/-- The text of a list of types. -/
def list (types : List Ty) : String := "[" ++ Text.separated ", " (types.map name) ++ "]"

/-- What is written while a value is found, followed by lines about the value. -/
def tell {α : Type} (found : Journaled α) (about : α → List String) : List String :=
  let records := found.notices.map
    (.ofNotice setting.config.spelling fun id ↦ (setting.hooks id).description)
  Record.lines limit records ++ about found.value

/-- Puts an inquiry to a representation and tells about the answer. -/
def ask {α : Type} (r : Representation) (inquiry : Inquiry α) (about : α → String) :
    List String :=
  tell (inquiry.run r) fun answer ↦ [about answer.1]

/-- What walking says about the first zoo. -/
def firstLines : List String :=
  let r := Representation.plain zoo
  (zoo.outline setting.config.spelling).splitOn "\n"
    ++ ask r (zoo.inquireRelation .subsumes animal bird) ("animal subsumes bird: " ++ toString ·)
    ++ ask r (zoo.inquireBounds .leastUpper bird mammal) ("lub(bird, mammal) = " ++ list ·)
    ++ ask r (zoo.inquireBounds .greatestLower bird mammal) ("glb(bird, mammal) = " ++ list ·)
    ++ ask r zoo.isDeterministic ("deterministic: " ++ toString ·)

/-- What walking says about the wider zoo. -/
def secondLines : List String :=
  let r := Representation.plain widerZoo
  let strata := widerZoo.stratasort widerZoo.types.toList
  ask r widerZoo.isDeterministic ("after adding platypus, deterministic: " ++ toString ·)
    ++ tell (widerZoo.ambiguousPair.run r) (fun answer ↦ match answer.1 with
      | some (left, right) => ["  first ambiguous pair: " ++ name left ++ " and " ++ name right]
      | none => [])
    ++ ask r (Hierarchy.foldTypes setting .leastUpper [bird, mammal])
      ("njoin(bird, mammal) = " ++ name ·)
    ++ ask r (widerZoo.resolveRelation setting .subsumes (.type bird) (.hook "birdlike"))
      ("bird subsumes <birdlike>: " ++ toString ·)
    ++ strata.zipIdx.map fun (stratum, depth) ↦
      "stratum " ++ depth.repr ++ ": " ++ list stratum

/-- What rows and a memo say about the wider zoo. -/
def thirdLines : List String :=
  let found := (Representation.compiled { hierarchy := widerZoo }).compile
  let r := found.value.2
  let memoized := r.memoize setting.config.memoCapacity
  let lookUp := widerZoo.inquireBounds .greatestLower (.named "bat") (.named "platypus")
  let thrice := (do let _ ← lookUp; let _ ← lookUp; lookUp : Inquiry (List Ty))
  tell found (fun answer ↦ ["compiled width: " ++ (answer.1.getD 0).repr])
    ++ ask r (widerZoo.inquireBounds .leastUpper bird mammal)
      ("compiled lub(bird, mammal) = " ++ list ·)
    ++ tell (thrice.run memoized) fun answer ↦
      (answer.2.memo?.map fun memo ↦
        "cache hits: " ++ memo.hits.repr ++ ", misses: " ++ memo.misses.repr).toList

/-- The lines of the demonstration. -/
def transcript : List String := firstLines ++ secondLines ++ thirdLines

end Taxonomy.Demo
