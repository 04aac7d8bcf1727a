import Taxonomy.Hierarchy.Merge

/-!
# Requests

A request is an edit as data: everything that may be asked of a hierarchy to change it. A hierarchy
that has only ever been changed by requests has a history of requests, and what every request keeps
holds of it.

The hierarchies that a request takes over are given as sources of any kind `σ`; a request is served
once they are hierarchies.
-/

namespace Taxonomy

/-- An edit as data. -/
inductive Request (σ : Type) where
  | add (name : String) (parents : List String)
  | move (name : String) (parents : List String)
  | addParents (name : String) (parents : List String)
  | remove (names : List String)
  | replace (old new : String)
  | ensureTypes (names : List String)
  | clear
  | assign (source : σ)
  | merge (source : σ)
  | setAttribute (t : Ty) (key : String) (value : Attribute)
  | removeAttribute (t : Ty) (key : String)
  | setOwnAttribute (key : String) (value : Attribute)
  | removeOwnAttribute (key : String)

namespace Request

variable {σ τ : Type}

/-- Looks the sources up; without one there is no request. -/
def resolve (lookUp : σ → Option τ) : Request σ → Option (Request τ)
  | add name parents => some (add name parents)
  | move name parents => some (move name parents)
  | addParents name parents => some (addParents name parents)
  | remove names => some (remove names)
  | replace old new => some (replace old new)
  | ensureTypes names => some (ensureTypes names)
  | clear => some clear
  | assign source => (lookUp source).map assign
  | merge source => (lookUp source).map merge
  | setAttribute t key value => some (setAttribute t key value)
  | removeAttribute t key => some (removeAttribute t key)
  | setOwnAttribute key value => some (setOwnAttribute key value)
  | removeOwnAttribute key => some (removeOwnAttribute key)

end Request

/-- What a request comes to beside the hierarchy. -/
inductive Outcome where
  | done
  /-- The value that an annotation had before. -/
  | previous (value : Option Attribute)
  /-- Why a merge was refused. -/
  | refused (conflict : Conflict)
deriving DecidableEq

/-- Serves a request. -/
def Hierarchy.serve (h : Hierarchy) (spelling : Spelling) :
    Request Hierarchy → Journaled (Hierarchy × Outcome)
  | .add name parents => (·, .done) <$> h.add spelling name parents
  | .move name parents => (·, .done) <$> h.move spelling name parents
  | .addParents name parents => (·, .done) <$> h.addParents spelling name parents
  | .remove names => (·, .done) <$> h.remove names
  | .replace old new => (·, .done) <$> h.replace spelling old new
  | .ensureTypes names => (·, .done) <$> h.ensureTypes spelling names
  | .clear => return (h.clear, .done)
  | .assign source => (·, .done) <$> h.assign source
  | .merge source => do
    match ← h.merge source with
    | .ok merged => return (merged, .done)
    | .error conflict => return (h, .refused conflict)
  | .setAttribute t key value =>
    (·, .previous (h.attributeOf? t key)) <$> h.setAttribute t key value
  | .removeAttribute t key => return (h.removeAttribute t key, .previous (h.attributeOf? t key))
  | .setOwnAttribute key value =>
    return (h.setOwnAttribute key value, .previous (h.ownAttributes.get? key))
  | .removeOwnAttribute key =>
    return (h.removeOwnAttribute key, .previous (h.ownAttributes.get? key))

end Taxonomy
