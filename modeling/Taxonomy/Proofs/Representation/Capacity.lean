import Mathlib.Data.List.Nodup
import Taxonomy.Proofs.Representation.Memo
import Taxonomy.Representation.Basic

/-!
# What a full memo holds

A memo holds what was looked up latest, as much of it as its capacity allows. `Memo.Holds` says so
of the keys looked up in a generation, each taken once and the latest first, and a look-up of bounds
keeps it and is a hit exactly if the key is held (`Representation.exists_lookUpBounds`).

A memo notices that the generation has moved only at the next look-up of bounds. There is no key to
be held until then, so `Memo.Holds` asks an older memo for nothing but that.

What the capacity cuts off is not missed later: another key comes to the front, and what has been
cut off already would be cut off again (`take_cons_filter_take`).
-/

namespace Taxonomy

/-! ## Latest first -/

section Firsts

variable {α : Type} {a : α} {l before later : List α} {n : Nat}

/-- An element is in the beginning of a list without repetition if few others are before it. -/
theorem mem_take_append_cons_iff (hnodup : (before ++ a :: later).Nodup) :
    a ∈ (before ++ a :: later).take n ↔ before.length < n := by
  have hnot : a ∉ before := fun ha ↦
    (List.nodup_append.1 hnodup).2.2 a ha a List.mem_cons_self rfl
  rw [List.take_append, List.mem_append]
  constructor
  · rintro (hbefore | hlater)
    · exact absurd (List.mem_of_mem_take hbefore) hnot
    · by_contra hle
      rw [Nat.sub_eq_zero_of_le (Nat.le_of_not_lt hle)] at hlater
      exact List.not_mem_nil hlater
  · intro hlt
    obtain ⟨m, hm⟩ : ∃ m, n - before.length = m + 1 := ⟨n - before.length - 1, by omega⟩
    rw [hm, List.take_succ_cons]
    exact .inr List.mem_cons_self

variable [DecidableEq α]

/-- What has been cut off a list is not missed once another element has come to its front. -/
theorem take_cons_filter_take (hnodup : l.Nodup) :
    (a :: (l.take n).filter (· ≠ a)).take n = (a :: l.filter (· ≠ a)).take n := by
  cases n with
  | zero => rfl
  | succ n =>
    have hsplit : l.filter (· ≠ a) =
        (l.take (n + 1)).filter (· ≠ a) ++ (l.drop (n + 1)).filter (· ≠ a) := by
      rw [← List.filter_append, List.take_append_drop]
    rw [List.take_succ_cons, List.take_succ_cons, hsplit]
    rcases Nat.lt_or_ge n l.length with hlt | hge
    · -- one element goes at most, so `n` are left
      have herase : (l.take (n + 1)).filter (· ≠ a) = (l.take (n + 1)).erase a := by
        rw [(hnodup.sublist (List.take_sublist _ l)).erase_eq_filter]
        simp only [ne_eq, decide_not, bne, Bool.beq_eq_decide_eq]
      have hlength : n ≤ ((l.take (n + 1)).filter (· ≠ a)).length := by
        rw [herase, List.length_erase, List.length_take]
        split <;> omega
      rw [List.take_append_of_le_length hlength]
    · rw [List.drop_eq_nil_of_le (Nat.le_succ_of_le hge), List.filter_nil, List.append_nil]

variable [Ord α] [Std.TransOrd α] [Std.LawfulEqOrd α]

theorem FinSet.firstsOutside_eq_filter (seen : FinSet α) (l : List α) :
    FinSet.firstsOutside seen l = (FinSet.firsts l).filter (· ∉ seen) := by
  induction l generalizing seen with
  | nil => rfl
  | cons a rest ih =>
    have hcons : FinSet.firsts (a :: rest) =
        a :: (FinSet.firsts rest).filter (· ∉ FinSet.insert ∅ a) := by
      rw [FinSet.firsts, FinSet.firstsOutside, if_neg (FinSet.not_mem_empty a), ih]
    rw [FinSet.firstsOutside, hcons]
    split
    · rename_i ha
      rw [ih, List.filter_cons_of_neg (by simpa using ha), List.filter_filter]
      refine List.filter_congr fun b _ ↦ ?_
      by_cases hb : b = a
      · simp [hb, ha]
      · simp [hb]
    · rename_i ha
      rw [ih, List.filter_cons_of_pos (by simpa using ha), List.filter_filter]
      refine congrArg (a :: ·) (List.filter_congr fun b _ ↦ ?_)
      simp [Bool.and_comm]

theorem FinSet.firsts_cons : firsts (a :: l) = a :: (firsts l).filter (· ≠ a) := by
  rw [FinSet.firsts, FinSet.firstsOutside, if_neg (FinSet.not_mem_empty a),
    firstsOutside_eq_filter]
  simp

/-- An element is among the first few distinct ones if few distinct ones are before its first
occurrence. -/
theorem FinSet.mem_take_firsts_iff : a ∈ (FinSet.firsts l).take n ↔ ∃ before later,
    l = before ++ a :: later ∧ a ∉ before ∧ (FinSet.firsts before).length < n := by
  have hsplit : ∀ before later, a ∉ before →
      (a ∈ (FinSet.firsts (before ++ a :: later)).take n ↔
        (FinSet.firsts before).length < n) := by
    intro before later hnot
    have happend : FinSet.firsts (before ++ a :: later) =
        FinSet.firsts before ++ FinSet.firsts ((a :: later).removeAll before) := by
      simp only [FinSet.firsts_eq_eraseDups, List.eraseDups_append]
    have hnodup : (FinSet.firsts (before ++ a :: later)).Nodup := FinSet.nodup_firsts _
    rw [List.cons_removeAll, if_pos (by simpa using hnot), firsts_cons] at happend
    rw [happend] at hnodup ⊢
    exact mem_take_append_cons_iff hnodup
  constructor
  · intro ha
    obtain ⟨before, later, rfl, hnot⟩ :=
      List.eq_append_cons_of_mem (FinSet.mem_firsts.1 (List.mem_of_mem_take ha))
    exact ⟨before, later, rfl, hnot, (hsplit before later hnot).1 ha⟩
  · rintro ⟨before, later, rfl, hnot, hlt⟩
    exact (hsplit before later hnot).2 hlt

end Firsts

/-! ## Keys -/

namespace MemoKey

variable {b b' : Bound} {left right left' right' : Ty}

theorem of_comm (b : Bound) (left right : Ty) : MemoKey.of b left right = .of b right left := by
  rw [MemoKey.of, MemoKey.of, Std.OrientedOrd.eq_swap (a := right)]
  cases h : compare left right with
  | lt => rfl
  | gt => rfl
  | eq =>
    rw [Std.LawfulEqOrd.eq_of_compare h]
    rfl

/-- Two keys are the same if they are for the same bound of the same two types in either order. -/
theorem of_eq_of_iff : MemoKey.of b left right = .of b' left' right' ↔
    b = b' ∧ (left = left' ∧ right = right' ∨ left = right' ∧ right = left') := by
  constructor
  · intro h
    rw [MemoKey.of, MemoKey.of] at h
    split at h
    · split at h
      · obtain ⟨rfl, rfl, rfl⟩ := MemoKey.mk.inj h
        exact ⟨rfl, .inl ⟨rfl, rfl⟩⟩
      · obtain ⟨rfl, rfl, rfl⟩ := MemoKey.mk.inj h
        exact ⟨rfl, .inr ⟨rfl, rfl⟩⟩
    · split at h
      · obtain ⟨rfl, rfl, rfl⟩ := MemoKey.mk.inj h
        exact ⟨rfl, .inr ⟨rfl, rfl⟩⟩
      · obtain ⟨rfl, rfl, rfl⟩ := MemoKey.mk.inj h
        exact ⟨rfl, .inl ⟨rfl, rfl⟩⟩
  · rintro ⟨rfl, ⟨rfl, rfl⟩ | ⟨rfl, rfl⟩⟩
    · rfl
    · exact of_comm b left right

end MemoKey

/-! ## Holding the latest keys -/

namespace Memo

variable {memo : Memo} {capacity generation generation' : Nat} {latest : List MemoKey}
  {key : MemoKey} {bounds : List Ty}

/-- The keys that a memo holds, the one used last first. -/
def keys (memo : Memo) : List MemoKey := memo.entries.toList.map Prod.fst

theorem isSome_find?_iff : (memo.find? key).isSome ↔ key ∈ memo.keys := by
  rw [find?, keys, Option.isSome_iff_exists, List.mem_map]
  constructor
  · rintro ⟨bounds, hfind⟩
    exact ⟨(key, bounds), Recent.mem_toList_iff.2 hfind, rfl⟩
  · rintro ⟨⟨_, bounds⟩, hmem, rfl⟩
    exact ⟨bounds, Recent.mem_toList_iff.1 hmem⟩

theorem keys_hit : (memo.hit key bounds).keys = key :: memo.keys.filter (· ≠ key) := by
  rw [keys, hit, Recent.toList_use, List.map_cons, keys, List.filter_map]
  rfl

theorem keys_put (h : memo.keys.length ≤ memo.capacity) :
    (memo.put key bounds).keys =
      (key :: memo.keys.filter (· ≠ key)).take memo.capacity := by
  rw [keys, List.length_map, Recent.length_toList] at h
  rw [keys, toList_put key bounds h, List.map_take, List.map_cons, keys, List.filter_map]
  rfl

/-- The memo holds as many of the latest keys as its capacity allows. A memo of an earlier
generation holds whatever it held then, but no key has been looked up in the present one. -/
structure Holds (memo : Memo) (capacity generation : Nat) (latest : List MemoKey) : Prop where
  capacity_eq : memo.capacity = capacity
  generation_le : memo.generation ≤ generation
  keys_eq : memo.generation = generation → memo.keys = latest.take capacity
  eq_nil : memo.generation ≠ generation → latest = []

namespace Holds

/-- When the generation moves, the memo need not know. -/
theorem of_lt (hh : memo.Holds capacity generation latest) (hlt : generation < generation') :
    memo.Holds capacity generation' [] where
  capacity_eq := hh.capacity_eq
  generation_le := Nat.le_trans hh.generation_le (Nat.le_of_lt hlt)
  keys_eq heq := by
    have hle : memo.generation ≤ generation := hh.generation_le
    omega
  eq_nil _ := rfl

theorem clear (hh : memo.Holds capacity generation latest) :
    memo.clear.Holds capacity generation [] where
  capacity_eq := hh.capacity_eq
  generation_le := hh.generation_le
  keys_eq _ := List.take_nil.symm
  eq_nil _ := rfl

/-- A memo that has been refreshed holds the latest keys of the present generation. -/
theorem refresh (hh : memo.Holds capacity generation latest) :
    (memo.refresh generation).value.generation = generation ∧
      (memo.refresh generation).value.Holds capacity generation latest := by
  rw [value_refresh]
  split
  · rename_i heq
    exact ⟨heq, hh⟩
  · rename_i hne
    refine ⟨rfl, hh.capacity_eq, Nat.le_refl _, fun _ ↦ ?_, fun hne' ↦ absurd rfl hne'⟩
    rw [hh.eq_nil hne, List.take_nil]
    rfl

/-- A use of a key that is held keeps all others that are held. -/
theorem hit (hh : memo.Holds capacity generation latest) (heq : memo.generation = generation)
    (hnodup : latest.Nodup) (hkey : key ∈ memo.keys) :
    (memo.hit key bounds).Holds capacity generation (key :: latest.filter (· ≠ key)) where
  capacity_eq := hh.capacity_eq
  generation_le := hh.generation_le
  keys_eq _ := by
    have hkeys : memo.keys = latest.take capacity := hh.keys_eq heq
    rw [hkeys] at hkey
    have hlt : ((latest.take capacity).filter (· ≠ key)).length < (latest.take capacity).length :=
      List.length_filter_lt_length_iff_exists.2 ⟨key, hkey, by simp⟩
    -- the key only moves to the front, so nothing has to make room
    have hroom : (key :: (latest.take capacity).filter (· ≠ key)).length ≤ capacity :=
      Nat.le_trans hlt (List.length_take_le ..)
    rw [keys_hit, hkeys, ← take_cons_filter_take hnodup, List.take_of_length_le hroom]
  eq_nil hne := absurd heq hne

/-- A new key may cost the one that has gone unused for longest its place. -/
theorem put (hh : memo.Holds capacity generation latest) (heq : memo.generation = generation)
    (hnodup : latest.Nodup) :
    (memo.miss.put key bounds).Holds capacity generation (key :: latest.filter (· ≠ key)) where
  capacity_eq := hh.capacity_eq
  generation_le := hh.generation_le
  keys_eq _ := by
    have hkeys : memo.miss.keys = latest.take capacity := hh.keys_eq heq
    have hcapacity : memo.miss.capacity = capacity := hh.capacity_eq
    have hle : memo.miss.keys.length ≤ memo.miss.capacity := by
      rw [hkeys, hcapacity]
      exact List.length_take_le ..
    rw [keys_put hle, hkeys, hcapacity, take_cons_filter_take hnodup]
  eq_nil hne := absurd heq hne

end Holds

end Memo

/-! ## Looking up -/

namespace Representation

variable {inner : Representation} {memo : Memo} {capacity : Nat} {latest : List MemoKey}

/-- Looking up bounds makes their key the latest one. It is a hit if the key was held. -/
theorem exists_lookUpBounds (hh : memo.Holds capacity inner.hierarchy.generation latest)
    (hnodup : latest.Nodup) (b : Bound) (left right : Ty) :
    ∃ memo' inner',
      ((memoized memo inner).lookUpBounds b left right).value.2 = memoized memo' inner' ∧
      memo'.Holds capacity inner.hierarchy.generation
        (.of b left right :: latest.filter (· ≠ .of b left right)) ∧
      (.of b left right ∈ latest.take capacity →
        memo'.hits = memo.hits + 1 ∧ memo'.misses = memo.misses) ∧
      (.of b left right ∉ latest.take capacity →
        memo'.hits = memo.hits ∧ memo'.misses = memo.misses + 1) := by
  obtain ⟨hgeneration, hfresh⟩ := hh.refresh
  have hkeys := hfresh.keys_eq hgeneration
  have hcounts : (memo.refresh inner.hierarchy.generation).value.hits = memo.hits ∧
      (memo.refresh inner.hierarchy.generation).value.misses = memo.misses := by
    rw [Memo.value_refresh]
    split
    · exact ⟨rfl, rfl⟩
    · exact ⟨rfl, rfl⟩
  rw [lookUpBounds, Journaled.value_bind, ← hkeys]
  dsimp only
  cases hfind : (memo.refresh inner.hierarchy.generation).value.find? (.of b left right) with
  | some bounds =>
    have hkey := Memo.isSome_find?_iff.1 (Option.isSome_of_mem hfind)
    refine ⟨_, _, rfl, hfresh.hit hgeneration hnodup hkey, fun _ ↦ ?_, absurd hkey⟩
    exact ⟨congrArg (· + 1) hcounts.1, hcounts.2⟩
  | none =>
    have hkey : .of b left right ∉ (memo.refresh inner.hierarchy.generation).value.keys := by
      rw [← Memo.isSome_find?_iff, hfind]
      exact Bool.false_ne_true
    refine ⟨_, _, rfl, hfresh.put hgeneration hnodup, fun hmem ↦ absurd hmem hkey, fun _ ↦ ?_⟩
    exact ⟨hcounts.1, congrArg (· + 1) hcounts.2⟩

end Representation

end Taxonomy
