import Taxonomy.Finite.Map
import Taxonomy.Text.Quoted
import Taxonomy.Text.Separated

/-!
# Attributes

Types, and a hierarchy as a whole, carry annotations: named flags, integers and texts. They take no
part in the order. Two annotation maps combine to their union unless they give some key different
values; the least such key is the one reported (`Attributes.clash?_eq_some_iff`).
-/

namespace Taxonomy

/-- The value of an annotation. -/
inductive Attribute where
  | flag (value : Bool)
  | integer (value : Int)
  | text (value : String)
deriving DecidableEq

/-- The written form of a value; text is quoted. -/
def Attribute.display : Attribute → String
  | flag value => toString value
  | integer value => toString value
  | text value => Text.quoted value

/-- Annotations by key. -/
abbrev Attributes := FinMap String Attribute

namespace Attributes

/-- Two values given to one key. -/
structure Clash where
  key : String
  left : Attribute
  right : Attribute
deriving DecidableEq

/-- The least key to which the two maps give different values. -/
def clash? (target source : Attributes) : Option Clash :=
  source.entries.findSome? fun (key, right) ↦
    match target.get? key with
    | some left => if left = right then none else some ⟨key, left, right⟩
    | none => none

/-- Adds the entries of `source` whose keys `target` lacks. -/
def fill (target source : Attributes) : Attributes :=
  source.entries.foldl
    (fun target (key, value) ↦ if target.contains key then target else target.insert key value)
    target

/-- The entries of both maps, unless they clash. -/
def union (target source : Attributes) : Except Clash Attributes :=
  match clash? target source with
  | some clash => .error clash
  | none => .ok (fill target source)

/-! ## What clashes and what the union holds -/

section Union

variable {target source : Attributes} {clash : Clash} {key : String} {value : Attribute}

/-- Both maps bind the key of a clash, to its two values, and these differ. -/
structure Clash.Between (clash : Clash) (target source : Attributes) : Prop where
  left_eq : target.get? clash.key = some clash.left
  right_eq : source.get? clash.key = some clash.right
  ne : clash.left ≠ clash.right

/-- No clash between the maps has a lesser key. -/
structure Clash.LeastBetween (clash : Clash) (target source : Attributes) : Prop
    extends clash.Between target source where
  key_le : ∀ other : Clash, other.Between target source → clash.key ≤ other.key

/-- A clash is known by its key. -/
theorem Clash.Between.unique {other : Clash} (hclash : clash.Between target source)
    (hother : other.Between target source) (hkey : clash.key = other.key) : clash = other := by
  obtain ⟨key, left, right⟩ := clash
  obtain ⟨key', left', right'⟩ := other
  obtain rfl : key = key' := hkey
  obtain rfl : left = left' := Option.some.inj (hclash.left_eq.symm.trans hother.left_eq)
  obtain rfl : right = right' := Option.some.inj (hclash.right_eq.symm.trans hother.right_eq)
  rfl

/-- What is found at one entry of the source. -/
private theorem entry_eq_some_iff (hright : source.get? key = some value) :
    (match target.get? key with
      | some left => if left = value then none else some (⟨key, left, value⟩ : Clash)
      | none => none) = some clash ↔ clash.Between target source ∧ clash.key = key := by
  constructor
  · intro hfound
    split at hfound
    · rename_i left hleft
      split at hfound
      · cases hfound
      · rename_i hne
        obtain rfl := Option.some.inj hfound
        exact ⟨⟨hleft, hright, hne⟩, rfl⟩
    · cases hfound
  · rintro ⟨⟨hleft, hright', hne⟩, rfl⟩
    obtain rfl : clash.right = value := Option.some.inj (hright'.symm.trans hright)
    rw [hleft]
    exact if_neg hne

/-- There is no clash to be found exactly if there is none. -/
theorem clash?_eq_none_iff :
    clash? target source = none ↔ ∀ clash : Clash, ¬ clash.Between target source := by
  rw [clash?, List.findSome?_eq_none_iff]
  constructor
  · intro hnone clash hclash
    have hmem : (clash.key, clash.right) ∈ source.entries :=
      FinMap.mem_entries_iff.2 hclash.right_eq
    have hfound := (entry_eq_some_iff hclash.right_eq).2 ⟨hclash, rfl⟩
    exact Option.some_ne_none clash (hfound.symm.trans (hnone _ hmem))
  · rintro hnone ⟨key, value⟩ hmem
    refine Option.eq_none_iff_forall_ne_some.2 fun clash hfound ↦ ?_
    exact hnone clash ((entry_eq_some_iff (FinMap.mem_entries_iff.1 hmem)).1 hfound).1

private theorem le_of_compare_eq_lt {a b : String} (h : compare a b = .lt) : a ≤ b := by
  have hlt : a < b := by
    change compareOfLessAndEq a b = .lt at h
    rw [compareOfLessAndEq] at h
    split at h
    · assumption
    · split at h <;> cases h
  exact Std.le_of_lt hlt

/-- **The clash found is the one with the least key.** -/
theorem clash?_eq_some_iff :
    clash? target source = some clash ↔ clash.LeastBetween target source := by
  have hleast : ∀ {clash : Clash}, clash? target source = some clash →
      clash.LeastBetween target source := by
    intro clash hclash
    obtain ⟨before, ⟨key, value⟩, after, hsplit, hentry, hbefore⟩ :=
      List.findSome?_eq_some_iff.1 hclash
    have hright : source.get? key = some value := by
      rw [← FinMap.mem_entries_iff, hsplit]
      exact List.mem_append_right before List.mem_cons_self
    obtain ⟨hbetween, rfl⟩ := (entry_eq_some_iff hright).1 hentry
    refine ⟨hbetween, fun other hother ↦ ?_⟩
    have hmem : (other.key, other.right) ∈ before ++ (clash.key, value) :: after := by
      rw [← hsplit, FinMap.mem_entries_iff]
      exact hother.right_eq
    rcases List.mem_append.1 hmem with hmem | hmem
    · -- an entry at which nothing has been found
      have hfound := (entry_eq_some_iff hother.right_eq).2 ⟨hother, rfl⟩
      exact absurd (hfound.symm.trans (hbefore _ hmem)) (Option.some_ne_none other)
    · rcases List.mem_cons.1 hmem with heq | hmem
      · have hkey : other.key = clash.key := (Prod.mk.inj heq).1
        exact hkey ▸ Std.le_refl other.key
      · have hascending := source.ascending
        rw [hsplit, List.pairwise_append, List.pairwise_cons] at hascending
        exact le_of_compare_eq_lt (hascending.2.1.1 _ hmem)
  refine ⟨hleast, fun hclash ↦ ?_⟩
  cases hother : clash? target source with
  | none => exact absurd hclash.toBetween (clash?_eq_none_iff.1 hother clash)
  | some other =>
    have hle : clash.key ≤ other.key := hclash.key_le other (hleast hother).toBetween
    have hge : other.key ≤ clash.key := (hleast hother).key_le clash hclash.toBetween
    rw [hclash.unique (hleast hother).toBetween (Std.le_antisymm hle hge)]

theorem get?_fill : (fill target source).get? key = (target.get? key).or (source.get? key) := by
  suffices ∀ (entries : List (String × Attribute)) (target : Attributes),
      (entries.foldl (fun target (key, value) ↦
        if target.contains key then target else target.insert key value) target).get? key =
        (target.get? key).or (entries.lookup key) by
    rw [fill, this, FinMap.lookup_eq (.refl _)]
  intro entries
  induction entries with
  | nil => intro target; simp
  | cons e rest ih =>
    obtain ⟨key', value⟩ := e
    intro target
    rw [List.foldl_cons, ih]
    by_cases hkey : key = key'
    · subst hkey
      cases hget : target.get? key with
      | none => simp [FinMap.contains, hget]
      | some old => simp [FinMap.contains, hget]
    · have hlookup : List.lookup key ((key', value) :: rest) = rest.lookup key := by
        rw [List.lookup_cons, beq_eq_false_iff_ne.2 hkey]
      rw [hlookup]
      dsimp only
      split
      · rfl
      · rw [FinMap.get?_insert, if_neg hkey]

/-- Without a clash, the union holds what either map holds. -/
theorem get?_fill_eq_some_iff (hnone : clash? target source = none) :
    (fill target source).get? key = some value ↔
      target.get? key = some value ∨ source.get? key = some value := by
  rw [get?_fill]
  cases hleft : target.get? key with
  | none => simp
  | some left =>
    refine ⟨.inl, fun heither ↦ heither.elim id fun hright ↦ ?_⟩
    by_cases heq : left = value
    · exact congrArg some heq
    · exact absurd ⟨hleft, hright, heq⟩ (clash?_eq_none_iff.1 hnone ⟨key, left, value⟩)

end Union

/-- The entries in braces, by ascending key. -/
def display (attributes : Attributes) : String :=
  let entries := attributes.entries.map fun (key, value) ↦ key ++ "=" ++ value.display
  "\x7b" ++ Text.separated ", " entries ++ "\x7d"

end Attributes

end Taxonomy
