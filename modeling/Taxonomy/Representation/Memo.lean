import Taxonomy.Finite.Recent
import Taxonomy.Operand
import Taxonomy.Report.Journal

/-!
# Memos

A memo remembers bounds that were looked up. It is bounded: when it is full, the entry that has gone
unused for longest makes room. Bounds are symmetric, so a pair is remembered under its two types in
presentation order, once for each kind of bound.

A memo belongs to one generation of a hierarchy and forgets everything when it is used with another.
It counts how often it could help (`hits`) and how often not (`misses`).
-/

namespace Taxonomy

/-- What a bound is remembered under. -/
structure MemoKey where
  bound : Bound
  /-- The first of the two types in presentation order. -/
  low : Ty
  high : Ty
deriving DecidableEq

/-- Keys are ordered by their types and then by the bound. -/
instance : Ord MemoKey where
  compare := compareLex (compareOn MemoKey.low)
    (compareLex (compareOn MemoKey.high) (compareOn fun key ↦ key.bound.rank))

instance : Std.TransOrd MemoKey := inferInstanceAs (Std.TransCmp (compareLex _ _))

instance : Std.LawfulEqOrd MemoKey where
  compare_self {key} := Std.ReflCmp.compare_self
  eq_of_compare {a b} h := by
    obtain ⟨hlow, h⟩ := Ordering.then_eq_eq.1 h
    obtain ⟨hhigh, hrank⟩ := Ordering.then_eq_eq.1 h
    obtain ⟨bound, low, high⟩ := a
    obtain ⟨bound', low', high'⟩ := b
    obtain rfl : low = low' := Std.LawfulEqOrd.eq_of_compare hlow
    obtain rfl : high = high' := Std.LawfulEqOrd.eq_of_compare hhigh
    obtain rfl := Bound.rank_injective (Std.LawfulEqOrd.eq_of_compare hrank)
    rfl

/-- The key of a bound of two types, in either order. -/
def MemoKey.of (bound : Bound) (left right : Ty) : MemoKey :=
  if (compare left right).isLE then ⟨bound, left, right⟩ else ⟨bound, right, left⟩

/-- A bounded table of bounds. -/
structure Memo where
  /-- The greatest number of entries. -/
  capacity : Nat
  /-- The generation the entries belong to. -/
  generation : Nat
  /-- The bounds remembered, in the order of their use. -/
  entries : Recent MemoKey (List Ty) := ∅
  hits : Nat := 0
  misses : Nat := 0
deriving DecidableEq

namespace Memo

/-- Forgets what belongs to another generation. -/
def refresh (memo : Memo) (generation : Nat) : Journaled Memo :=
  if memo.generation = generation then return memo
  else do
    unless memo.entries.isEmpty do
      .report (.memoDropped memo.generation generation memo.entries.size)
    return { memo with entries := ∅, generation := generation }

/-- The bounds remembered under a key. -/
def find? (memo : Memo) (key : MemoKey) : Option (List Ty) := memo.entries.find? key

/-- Counts a hit; the entry becomes the one used last. -/
def hit (memo : Memo) (key : MemoKey) (bounds : List Ty) : Memo :=
  { memo with entries := memo.entries.use key bounds, hits := memo.hits + 1 }

/-- Counts a miss. -/
def miss (memo : Memo) : Memo := { memo with misses := memo.misses + 1 }

/-- Remembers bounds; the entry used longest ago makes room if need be. -/
def put (memo : Memo) (key : MemoKey) (bounds : List Ty) : Memo :=
  let used := memo.entries.use key bounds
  { memo with entries := if memo.capacity < used.size then used.dropOldest else used }

/-- What is remembered are the latest uses, as many as the memo can hold. -/
theorem toList_put {memo : Memo} (key : MemoKey) (bounds : List Ty)
    (h : memo.entries.size ≤ memo.capacity) :
    (memo.put key bounds).entries.toList =
      ((key, bounds) :: memo.entries.toList.filter fun e ↦ e.1 ≠ key).take memo.capacity := by
  have hsize : (memo.entries.use key bounds).size ≤ memo.capacity + 1 := by
    rw [← Recent.length_toList, Recent.toList_use, List.length_cons]
    exact Nat.succ_le_succ (Nat.le_trans (List.length_filter_le ..) (by simpa using h))
  rw [put, ← Recent.toList_use]
  split
  · rename_i hlt
    rw [Recent.toList_dropOldest, List.dropLast_eq_take, Recent.length_toList,
      Nat.le_antisymm hsize hlt, Nat.add_sub_cancel]
  · rename_i hle
    rw [List.take_of_length_le]
    simpa using hle

/-- Forgets everything, the counts included. -/
def clear (memo : Memo) : Memo := { memo with entries := ∅, hits := 0, misses := 0 }

/-- The share of hits among all look-ups, in single precision; zero before the first. -/
def hitRate (memo : Memo) : Float32 :=
  let total := memo.hits + memo.misses
  if total = 0 then 0 else Float32.ofNat memo.hits / Float32.ofNat total

end Memo

end Taxonomy
