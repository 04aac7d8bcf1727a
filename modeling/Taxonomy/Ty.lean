/-!
# Types

A type of a taxonomy is a name, or one of two reserved values outside every hierarchy: `undefined`
carries no information and is the most general value, `top` marks an inconsistency and is the most
specific one.

The order on `Ty` defined here is a *presentation order*: the reserved values come first, names
follow by code point. Every set-valued answer is listed in it, so answers are reproducible. It has
nothing to do with subsumption.
-/

namespace Taxonomy

/-- A named type or one of the two reserved values. -/
inductive Ty where
  | undefined
  | top
  | named (name : String)
deriving DecidableEq, Inhabited

namespace Ty

/-- The name of a named type. -/
def name? : Ty → Option String
  | named name => some name
  | _ => none

/-- Either reserved value. -/
def isReserved : Ty → Bool
  | named _ => false
  | _ => true

/-- The place of the reserved values before all names. -/
def rank : Ty → Nat
  | undefined => 0
  | top => 1
  | named _ => 2

instance : Ord Ty where
  compare
    | .named a, .named b => compare a b
    | a, b => compare a.rank b.rank

theorem compare_named (a b : String) : compare (named a) (named b) = compare a b := rfl

/-- Names are presented in lexicographic order. -/
theorem compare_named_eq_lt_iff {a b : String} : compare (named a) (named b) = .lt ↔ a < b :=
  compareOfLessAndEq_eq_lt

private theorem eq_of_compare_eq : ∀ {a b : Ty}, compare a b = .eq → a = b
  | undefined, undefined, _ | top, top, _ => rfl
  | named _, named _, h => congrArg named (Std.LawfulEqOrd.eq_of_compare h)
  | undefined, top, h | undefined, named _, h | top, undefined, h | top, named _, h
  | named _, undefined, h | named _, top, h => nomatch h

private theorem compare_swap : ∀ {a b : Ty}, compare a b = (compare b a).swap
  | named a, named b => show compare a b = (compare b a).swap from Std.OrientedOrd.eq_swap
  | undefined, undefined | undefined, top | undefined, named _ | top, undefined | top, top
  | top, named _ | named _, undefined | named _, top => rfl

private theorem compare_trans :
    ∀ {a b c : Ty}, (compare a b).isLE → (compare b c).isLE → (compare a c).isLE
  | named a, named b, named c, hab, hbc =>
    show (compare a c).isLE from
      Std.TransOrd.isLE_trans (show (compare a b).isLE from hab) (show (compare b c).isLE from hbc)
  | undefined, _, undefined, _, _ | undefined, _, top, _, _ | undefined, _, named _, _, _
  | top, _, top, _, _ | top, _, named _, _, _ => rfl
  | named _, undefined, _, h, _ | named _, top, _, h, _ | top, undefined, _, h, _ => nomatch h
  | top, top, undefined, _, h | top, named _, undefined, _, h | named _, named _, undefined, _, h
  | named _, named _, top, _, h => nomatch h

private theorem compare_refl : ∀ {a : Ty}, compare a a = .eq
  | named name => show compare name name = .eq from Std.ReflOrd.compare_self
  | undefined | top => rfl

instance : Std.ReflOrd Ty where
  compare_self := compare_refl

instance : Std.LawfulEqOrd Ty where
  eq_of_compare := eq_of_compare_eq

instance : Std.OrientedOrd Ty where
  eq_swap := compare_swap

instance : Std.TransOrd Ty where
  isLE_trans := compare_trans

/-- A list in presentation order; what occurs twice stays twice. -/
def presented (types : List Ty) : List Ty := types.mergeSort fun a b ↦ (compare a b).isLE

end Ty

end Taxonomy
