import Taxonomy.Finite.Map

/-!
# Maps that know what was used last

A `Recent` map keeps its entries in the order of their latest use. It stamps each use with a time of
its own and holds two maps, from the times to the entries and from the keys to their times; they
agree, and all times lie in the past. So a use, a look-up and dropping the entry that has gone
unused for longest take the time of a few map operations.

The view is `toList`, the entries with the one used last first. `toList_use` and
`toList_dropOldest` say what the operations do to it, `find?_eq` that look-up reads it.
-/

namespace Taxonomy

/-- A finite map whose entries are ordered by their latest use. -/
structure Recent (κ ν : Type) [Ord κ] [Std.TransOrd κ] where
  /-- The time of the next use. -/
  clock : Nat
  /-- The entries by the time of their latest use. -/
  byTime : FinMap Nat (κ × ν)
  /-- When each key was used last. -/
  times : FinMap κ Nat
  agree : ∀ k t, times.get? k = some t ↔ ∃ v, byTime.get? t = some (k, v)
  past : ∀ t, byTime.contains t → t < clock
deriving DecidableEq

namespace Recent

variable {κ ν : Type} [Ord κ] [Std.TransOrd κ]

instance : EmptyCollection (Recent κ ν) where
  emptyCollection := ⟨0, ∅, ∅, fun _ _ ↦ by simp, fun _ h ↦ by simp [FinMap.contains] at h⟩

/-- The entries, the one used last first. -/
def toList (m : Recent κ ν) : List (κ × ν) := (m.byTime.entries.map Prod.snd).reverse

/-- The number of entries. -/
def size (m : Recent κ ν) : Nat := m.byTime.size

/-- Whether there is no entry. -/
def isEmpty (m : Recent κ ν) : Bool := m.byTime.isEmpty

/-- The value bound to `k`; looking is no use. -/
def find? (m : Recent κ ν) (k : κ) : Option ν :=
  (m.times.get? k).bind fun t ↦ (m.byTime.get? t).map Prod.snd

@[simp] theorem toList_empty : (∅ : Recent κ ν).toList = [] := rfl

@[simp] theorem length_toList (m : Recent κ ν) : m.toList.length = m.size := by
  rw [toList, List.length_reverse, List.length_map, FinMap.length_entries]
  rfl

/-- The entries are exactly the pairs that look-up finds. -/
theorem mem_toList_iff {m : Recent κ ν} {k : κ} {v : ν} :
    (k, v) ∈ m.toList ↔ m.find? k = some v := by
  rw [toList, List.mem_reverse, List.mem_map, find?]
  constructor
  · rintro ⟨⟨t, _⟩, hmem, rfl⟩
    have ht := FinMap.mem_entries_iff.1 hmem
    rw [(m.agree k t).2 ⟨v, ht⟩, Option.bind_some, ht]
    rfl
  · intro h
    obtain ⟨t, ht, hv⟩ := Option.bind_eq_some_iff.1 h
    obtain ⟨e, he, rfl⟩ := Option.map_eq_some_iff.1 hv
    obtain ⟨w, hw⟩ := (m.agree k t).1 ht
    obtain rfl : (k, w) = e := Option.some.inj (hw.symm.trans he)
    exact ⟨(t, (k, w)), FinMap.mem_entries_iff.2 hw, rfl⟩

/-- Look-up reads the list of entries. -/
theorem find?_eq [DecidableEq κ] (m : Recent κ ν) (k : κ) :
    m.find? k = (m.toList.find? fun e ↦ e.1 = k).map Prod.snd := by
  cases h : m.toList.find? fun e ↦ e.1 = k with
  | some e =>
    have hk : e.1 = k := by simpa using List.find?_some h
    rw [Option.map_some, ← mem_toList_iff, ← hk]
    exact List.mem_of_find?_eq_some h
  | none =>
    rw [Option.map_none, Option.eq_none_iff_forall_ne_some]
    intro v hv
    have := List.find?_eq_none.1 h _ (mem_toList_iff.2 hv)
    simp at this

/-! ## Use -/

/-- The entries by time without that of `k`. -/
private def others (m : Recent κ ν) (k : κ) : FinMap Nat (κ × ν) :=
  match m.times.get? k with
  | some t => m.byTime.erase t
  | none => m.byTime

private theorem get?_others (m : Recent κ ν) (k : κ) (t : Nat) :
    (m.others k).get? t = if m.times.get? k = some t then none else m.byTime.get? t := by
  rw [others]
  split
  · rename_i t' h
    rw [FinMap.get?_erase, h]
    by_cases ht : t = t' <;> simp [ht, eq_comm (a := t')]
  · rename_i h
    simp [h]

private theorem entries_others [DecidableEq κ] (m : Recent κ ν) (k : κ) :
    (m.others k).entries = m.byTime.entries.filter fun e ↦ e.2.1 ≠ k := by
  refine FinMap.entries_eq (m.byTime.ascending.filter _) fun t e ↦ ?_
  rw [List.mem_filter, FinMap.mem_entries_iff, get?_others]
  by_cases h : m.times.get? k = some t
  · obtain ⟨v, hv⟩ := (m.agree k t).1 h
    rw [if_pos h, hv]
    simp only [Option.some.injEq, reduceCtorEq, iff_false, not_and]
    rintro rfl
    simp
  · rw [if_neg h]
    refine ⟨And.left, fun ht ↦ ⟨ht, ?_⟩⟩
    have : e.1 ≠ k := fun hk ↦ h ((m.agree k t).2 ⟨e.2, by rw [ht, ← hk]⟩)
    simpa using this

variable [Std.LawfulEqOrd κ] [DecidableEq κ]

/-- Binds `k` to `v` and makes it the key used last. -/
def use (m : Recent κ ν) (k : κ) (v : ν) : Recent κ ν where
  clock := m.clock + 1
  byTime := (m.others k).insert m.clock (k, v)
  times := m.times.insert k m.clock
  agree k' t := by
    have hclock : m.byTime.get? m.clock = none := by
      rw [← Option.not_isSome_iff_eq_none]
      exact fun h ↦ Nat.lt_irrefl _ (m.past _ h)
    have hk := m.agree k t
    have hk' := m.agree k' t
    simp only [FinMap.get?_insert, get?_others]
    by_cases hkk : k' = k
    · -- the key that is used: its one time is the present, the old entry being gone
      subst hkk
      rw [if_pos rfl]
      refine ⟨fun h ↦ ?_, fun ⟨w, hw⟩ ↦ ?_⟩
      · obtain rfl := Option.some.inj h
        exact ⟨v, if_pos rfl⟩
      · split at hw
        · rename_i ht
          rw [ht]
        · split at hw
          · exact nomatch hw
          · rename_i hne
            exact absurd (hk.2 ⟨w, hw⟩) hne
    · -- any other key: the present is no time of it, and the entry that is gone was not its own
      rw [if_neg hkk, hk']
      by_cases ht : t = m.clock
      · simp [ht, hclock, Ne.symm hkk]
      · rw [if_neg ht]
        split
        · rename_i hold
          obtain ⟨w, hw⟩ := hk.1 hold
          simp [hw, Ne.symm hkk]
        · rfl
  past t h := by
    rw [FinMap.contains, FinMap.get?_insert, get?_others] at h
    have := m.past t
    rw [FinMap.contains] at this
    grind

theorem toList_use (m : Recent κ ν) (k : κ) (v : ν) :
    (m.use k v).toList = (k, v) :: m.toList.filter fun e ↦ e.1 ≠ k := by
  have hlt : ∀ t, (m.others k).contains t → compare t m.clock = .lt := fun t h ↦ by
    rw [Nat.compare_eq_lt]
    refine m.past t ?_
    rw [FinMap.contains, get?_others] at h
    rw [FinMap.contains]
    split at h
    · exact nomatch h
    · exact h
  show (((m.others k).insert m.clock (k, v)).entries.map Prod.snd).reverse = _
  rw [FinMap.entries_insert_of_lt hlt, entries_others, List.map_append, List.reverse_append, toList,
    List.filter_reverse, List.filter_map]
  rfl

/-- What is found after a use is what was used, or was found before. -/
theorem eq_or_find?_of_find?_use {m : Recent κ ν} {k k' : κ} {v v' : ν}
    (h : (m.use k v).find? k' = some v') : k' = k ∧ v' = v ∨ m.find? k' = some v' := by
  rw [← mem_toList_iff, toList_use, List.mem_cons] at h
  rcases h with heq | hmem
  · exact .inl (Prod.mk.inj heq)
  · exact .inr (mem_toList_iff.1 (List.mem_filter.1 hmem).1)

/-! ## Dropping -/

/-- Drops the entry that has gone unused for longest. -/
def dropOldest (m : Recent κ ν) : Recent κ ν :=
  match h : m.byTime.first? with
  | none => m
  | some (t, k, v) =>
    have hmem : m.byTime.get? t = some (k, v) := by
      rw [FinMap.first?_eq] at h
      exact FinMap.mem_entries_iff.1 (List.mem_of_head? h)
    { clock := m.clock
      byTime := m.byTime.erase t
      times := m.times.erase k
      agree := fun k' t' ↦ by
        have hk := (m.agree k t).2 ⟨v, hmem⟩
        have hk' := m.agree k' t'
        simp only [FinMap.get?_erase]
        by_cases hkk : k' = k
        · subst hkk
          rw [if_pos rfl]
          refine ⟨nofun, fun ⟨w, hw⟩ ↦ ?_⟩
          split at hw
          · exact nomatch hw
          · rename_i ht
            exact absurd (Option.some.inj ((hk'.2 ⟨w, hw⟩).symm.trans hk)) ht
        · rw [if_neg hkk, hk']
          by_cases ht : t' = t
          · subst ht
            simp [hmem, Ne.symm hkk]
          · rw [if_neg ht]
      past := fun t' h' ↦ m.past t' (by
        rw [FinMap.contains, FinMap.get?_erase] at h'
        rw [FinMap.contains]
        split at h'
        · exact nomatch h'
        · exact h') }

theorem toList_dropOldest (m : Recent κ ν) : m.dropOldest.toList = m.toList.dropLast := by
  rw [dropOldest]
  split
  · rename_i h
    rw [FinMap.first?_eq, List.head?_eq_none_iff] at h
    rw [toList, h]
    rfl
  · rename_i t k v h
    rw [FinMap.first?_eq] at h
    obtain ⟨rest, hrest⟩ := List.head?_eq_some_iff.1 h
    have hasc := m.byTime.ascending
    rw [hrest] at hasc
    have hfilter : rest.filter (fun e ↦ e.1 ≠ t) = rest :=
      List.filter_eq_self.2 fun e he ↦ by
        have := (List.pairwise_cons.1 hasc).1 e he
        rw [Nat.compare_eq_lt] at this
        simpa using (Nat.ne_of_lt this).symm
    show ((m.byTime.erase t).entries.map Prod.snd).reverse = _
    rw [FinMap.entries_erase, hrest, List.filter_cons_of_neg (by simp), hfilter, toList, hrest,
      List.dropLast_reverse]
    rfl

/-- What is found after dropping was found before. -/
theorem find?_of_find?_dropOldest {m : Recent κ ν} {k : κ} {v : ν}
    (h : m.dropOldest.find? k = some v) : m.find? k = some v := by
  rw [← mem_toList_iff, toList_dropOldest] at h
  exact mem_toList_iff.1 ((List.dropLast_sublist _).subset h)

end Recent

end Taxonomy
