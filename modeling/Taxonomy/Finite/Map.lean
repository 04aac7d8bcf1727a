import Std.Data.ExtTreeMap
import Taxonomy.Finite.Set

/-!
# Finite maps in ascending order of keys

A `FinMap` keeps its entries in a balanced tree ordered by their keys. The shape of the tree cannot
be observed: two maps with the same look-ups are equal (`FinMap.ext`). `entries` lists them with
strictly ascending keys (`FinMap.ascending`).

The view of a map is `get?`; each operation comes with the lemma that says what it does to it.
-/

namespace Taxonomy

/-- A finite map, listed in strictly ascending order of its keys. -/
structure FinMap (κ ν : Type) [Ord κ] where
  /-- The entries. -/
  tree : Std.ExtTreeMap κ ν compare

namespace FinMap

variable {κ ν : Type} [Ord κ] [Std.TransOrd κ]

instance : EmptyCollection (FinMap κ ν) where
  emptyCollection := ⟨∅⟩

instance : Inhabited (FinMap κ ν) := ⟨∅⟩

/-! ## Look-up -/

/-- The value bound to `k`. -/
def get? (m : FinMap κ ν) (k : κ) : Option ν := m.tree[k]?

/-- The value bound to `k`, or else `default`. -/
def getD (m : FinMap κ ν) (k : κ) (default : ν) : ν := (m.get? k).getD default

/-- Whether `k` is bound. -/
def contains (m : FinMap κ ν) (k : κ) : Bool := (m.get? k).isSome

/-- The entries, by ascending key. -/
def entries (m : FinMap κ ν) : List (κ × ν) := m.tree.toList

/-- The number of entries. -/
def size (m : FinMap κ ν) : Nat := m.tree.size

/-- Whether there is no entry. -/
def isEmpty (m : FinMap κ ν) : Bool := m.tree.isEmpty

@[simp] theorem get?_empty (k : κ) : (∅ : FinMap κ ν).get? k = none :=
  Std.ExtTreeMap.getElem?_empty

@[simp] theorem entries_empty : (∅ : FinMap κ ν).entries = [] := rfl

/-- Each key is below all later ones. -/
theorem ascending (m : FinMap κ ν) : m.entries.Pairwise fun a b ↦ compare a.1 b.1 = .lt :=
  Std.ExtTreeMap.ordered_keys_toList

@[simp] theorem length_entries (m : FinMap κ ν) : m.entries.length = m.size :=
  Std.ExtTreeMap.length_toList

/-- Two maps are equal exactly if they are listed alike. -/
theorem entries_inj {m n : FinMap κ ν} : m.entries = n.entries ↔ m = n := by
  obtain ⟨m⟩ := m
  obtain ⟨n⟩ := n
  rw [entries, entries, Std.ExtTreeMap.toList_inj, FinMap.mk.injEq]

instance [DecidableEq κ] [DecidableEq ν] : DecidableEq (FinMap κ ν) := fun _ _ ↦
  decidable_of_iff _ entries_inj

/-- Only one map has no entry. -/
theorem isEmpty_iff {m : FinMap κ ν} : m.isEmpty ↔ m = ∅ := by
  obtain ⟨m⟩ := m
  rw [isEmpty, Std.ExtTreeMap.isEmpty_iff]
  exact (FinMap.mk.injEq m ∅).symm.to_iff

variable [Std.LawfulEqOrd κ]

/-- The entries are exactly the pairs that look-up finds. -/
theorem mem_entries_iff {m : FinMap κ ν} {k : κ} {v : ν} :
    (k, v) ∈ m.entries ↔ m.get? k = some v :=
  Std.ExtTreeMap.mem_toList_iff_getElem?_eq_some

omit [Std.TransOrd κ] in
private theorem nodup_of_ascending {l : List (κ × ν)}
    (h : l.Pairwise fun a b ↦ compare a.1 b.1 = .lt) : l.Nodup :=
  h.imp fun {a b} hab heq ↦ by
    rw [heq, Std.ReflOrd.compare_self] at hab
    exact nomatch hab

/-- An ascending list of the pairs that look-up finds lists the entries. -/
theorem entries_eq {m : FinMap κ ν} {l : List (κ × ν)}
    (hl : l.Pairwise fun a b ↦ compare a.1 b.1 = .lt)
    (h : ∀ k v, (k, v) ∈ l ↔ m.get? k = some v) : m.entries = l := by
  refine List.Perm.eq_of_pairwise (fun a b _ _ hab hba ↦ ?_) m.ascending hl
    ((List.perm_ext_iff_of_nodup (nodup_of_ascending m.ascending) (nodup_of_ascending hl)).2
      fun e ↦ mem_entries_iff.trans (h e.1 e.2).symm)
  rw [Std.OrientedOrd.eq_swap, hba] at hab
  exact nomatch hab

omit [Std.LawfulEqOrd κ] in
/-- No key occurs twice, in whatever order the entries come. -/
theorem pairwise_ne {m : FinMap κ ν} {l : List (κ × ν)} (hl : l.Perm m.entries) :
    l.Pairwise fun a b ↦ a.1 ≠ b.1 := by
  refine (hl.pairwise_iff Ne.symm).2 (m.ascending.imp fun {a b} hlt heq ↦ ?_)
  rw [heq, Std.ReflOrd.compare_self] at hlt
  exact nomatch hlt

/-- Searching the entries, in whatever order they come, is looking up. -/
theorem lookup_eq [DecidableEq κ] {m : FinMap κ ν} {l : List (κ × ν)} (hl : l.Perm m.entries)
    (k : κ) : l.lookup k = m.get? k := by
  have hkeys : l.Pairwise fun a b ↦ a.1 ≠ b.1 := pairwise_ne hl
  refine Option.ext fun v ↦ ?_
  rw [List.lookup_eq_some_iff, ← mem_entries_iff, ← hl.mem_iff]
  constructor
  · rintro ⟨before, after, rfl, -⟩
    exact List.mem_append_right before List.mem_cons_self
  · intro hmem
    obtain ⟨before, after, rfl⟩ := List.append_of_mem hmem
    refine ⟨before, after, rfl, fun e he ↦ bne_iff_ne.2 ?_⟩
    exact ((List.pairwise_append.1 hkeys).2.2 e he _ List.mem_cons_self).symm

/-- Maps with the same look-ups are equal. -/
theorem ext {m n : FinMap κ ν} (h : ∀ k, m.get? k = n.get? k) : m = n :=
  congrArg FinMap.mk (Std.ExtTreeMap.ext_getElem? h)

/-- Maps that bind the same keys to the same values are equal. -/
theorem ext_getD {m n : FinMap κ ν} (default : ν) (hkeys : ∀ k, m.contains k ↔ n.contains k)
    (hvalues : ∀ k, m.getD k default = n.getD k default) : m = n := by
  refine ext fun k ↦ ?_
  have hk : (m.get? k).isSome ↔ (n.get? k).isSome := hkeys k
  have hv : (m.get? k).getD default = (n.get? k).getD default := hvalues k
  cases hm : m.get? k with
  | none =>
    rw [hm] at hk
    exact (Option.not_isSome_iff_eq_none.1 fun hn ↦ Bool.false_ne_true (hk.2 hn)).symm
  | some v =>
    rw [hm] at hk hv
    obtain ⟨v', hn⟩ := Option.isSome_iff_exists.1 (hk.1 rfl)
    rw [hn] at hv ⊢
    exact congrArg some hv

/-- The keys. -/
def keys (m : FinMap κ ν) : FinSet κ := FinSet.ofList m.tree.keys

/-- A key is bound exactly if it is one of the keys. -/
theorem contains_iff_mem_keys {m : FinMap κ ν} {k : κ} : m.contains k ↔ k ∈ m.keys := by
  rw [keys, FinSet.mem_ofList, Std.ExtTreeMap.mem_keys, Std.ExtTreeMap.mem_iff_isSome_getElem?]
  rfl

/-- There are as many keys as entries. -/
theorem size_keys (m : FinMap κ ν) : m.keys.size = m.size := by
  have hkeys : m.keys.toList = m.tree.keys := by
    refine FinSet.toList_eq Std.ExtTreeMap.ordered_keys fun k ↦ ?_
    rw [keys, FinSet.mem_ofList]
  rw [← FinSet.length_toList, hkeys, Std.ExtTreeMap.length_keys]
  rfl

/-- Maps that bind the same keys have the same keys. -/
theorem keys_eq_iff {ν' : Type} {m : FinMap κ ν} {n : FinMap κ ν'} :
    m.keys = n.keys ↔ ∀ k, m.contains k ↔ n.contains k := by
  simp only [contains_iff_mem_keys]
  exact ⟨fun h k ↦ by rw [h], FinSet.ext⟩

/-! ## Change -/

/-- Binds `k` to `v`, whatever it was bound to before. -/
def insert (m : FinMap κ ν) (k : κ) (v : ν) : FinMap κ ν := ⟨m.tree.insert k v⟩

theorem get?_insert [DecidableEq κ] (m : FinMap κ ν) (k k' : κ) (v : ν) :
    (m.insert k v).get? k' = if k' = k then some v else m.get? k' := by
  show (m.tree.insert k v)[k']? = _
  rw [Std.ExtTreeMap.getElem?_insert]
  by_cases h : k' = k <;> simp [h, eq_comm (a := k), get?]

omit [Std.LawfulEqOrd κ] in
@[simp] theorem get?_insert_self (m : FinMap κ ν) (k : κ) (v : ν) :
    (m.insert k v).get? k = some v := Std.ExtTreeMap.getElem?_insert_self

/-- A key above all others comes last. -/
theorem entries_insert_of_lt [DecidableEq κ] {m : FinMap κ ν} {k : κ} {v : ν}
    (h : ∀ k', m.contains k' → compare k' k = .lt) :
    (m.insert k v).entries = m.entries ++ [(k, v)] := by
  have hlt : ∀ {k' v'}, (k', v') ∈ m.entries → compare k' k = .lt := fun hmem ↦
    h _ (by rw [contains, mem_entries_iff.1 hmem]; rfl)
  refine entries_eq ?_ fun k' v' ↦ ?_
  · refine List.pairwise_append.2 ⟨m.ascending, List.pairwise_singleton _ _, ?_⟩
    rintro ⟨k', v'⟩ hmem e he
    rw [List.mem_singleton.1 he]
    exact hlt hmem
  · rw [List.mem_append, List.mem_singleton, Prod.mk.injEq, get?_insert]
    split
    · rename_i heq
      subst heq
      have hnot : (k', v') ∉ m.entries := fun hmem ↦ by
        have := hlt hmem
        rw [Std.ReflOrd.compare_self] at this
        exact nomatch this
      simp [hnot, eq_comm]
    · rename_i hne
      simp [hne, mem_entries_iff]

/-- Unbinds `k`. -/
def erase (m : FinMap κ ν) (k : κ) : FinMap κ ν := ⟨m.tree.erase k⟩

theorem get?_erase [DecidableEq κ] (m : FinMap κ ν) (k k' : κ) :
    (m.erase k).get? k' = if k' = k then none else m.get? k' := by
  show (m.tree.erase k)[k']? = _
  rw [Std.ExtTreeMap.getElem?_erase]
  by_cases h : k' = k <;> simp [h, eq_comm (a := k), get?]

/-- Nothing changes if `k` is not bound. -/
theorem erase_of_get?_eq_none [DecidableEq κ] {m : FinMap κ ν} {k : κ} (h : m.get? k = none) :
    m.erase k = m := by
  refine ext fun k' ↦ ?_
  rw [get?_erase]
  split
  · rename_i heq
    rw [heq, h]
  · rfl

theorem entries_erase [DecidableEq κ] (m : FinMap κ ν) (k : κ) :
    (m.erase k).entries = m.entries.filter fun e ↦ e.1 ≠ k := by
  refine entries_eq (m.ascending.filter _) fun k' v' ↦ ?_
  rw [List.mem_filter, mem_entries_iff, get?_erase]
  by_cases h : k' = k <;> simp [h]

/-- The entry with the least key. -/
def first? (m : FinMap κ ν) : Option (κ × ν) :=
  m.tree.minKey?.bind fun k ↦ (m.get? k).map fun v ↦ (k, v)

theorem first?_eq (m : FinMap κ ν) : m.first? = m.entries.head? := by
  have hkey : m.tree.minKey? = m.entries.head?.map Prod.fst := by
    rw [Std.ExtTreeMap.minKey?_eq_head?_keys, ← Std.ExtTreeMap.map_fst_toList_eq_keys,
      List.head?_map]
    rfl
  rw [first?, hkey]
  cases h : m.entries.head? with
  | none => rfl
  | some e =>
    have he : m.get? e.1 = some e.2 := mem_entries_iff.1 (List.mem_of_head? h)
    simp [he]

/-- Changes the value bound to `k`, if there is one. -/
def modify (m : FinMap κ ν) (k : κ) (f : ν → ν) : FinMap κ ν :=
  match m.get? k with
  | some v => m.insert k (f v)
  | none => m

theorem get?_modify [DecidableEq κ] (m : FinMap κ ν) (k k' : κ) (f : ν → ν) :
    (m.modify k f).get? k' = if k' = k then (m.get? k).map f else m.get? k' := by
  rw [modify]
  split
  · rename_i v hv
    rw [get?_insert, hv]
    rfl
  · rename_i hv
    by_cases h : k' = k <;> simp [h, hv]

/-- Changes the value bound to `k`, starting from `default` if there is none. -/
def upsert (m : FinMap κ ν) (k : κ) (default : ν) (f : ν → ν) : FinMap κ ν :=
  m.insert k (f (m.getD k default))

theorem get?_upsert [DecidableEq κ] (m : FinMap κ ν) (k k' : κ) (default : ν) (f : ν → ν) :
    (m.upsert k default f).get? k' =
      if k' = k then some (f (m.getD k default)) else m.get? k' := get?_insert ..

/-! ## Keys after changes -/

section Keys

variable [DecidableEq κ] {m : FinMap κ ν} {k k' : κ} {v : ν} {f : ν → ν}

theorem contains_insert : (m.insert k v).contains k' ↔ k' = k ∨ m.contains k' := by
  rw [contains, get?_insert, contains]
  by_cases h : k' = k <;> simp [h]

theorem contains_erase : (m.erase k).contains k' ↔ k' ≠ k ∧ m.contains k' := by
  rw [contains, get?_erase, contains]
  by_cases h : k' = k <;> simp [h]

theorem contains_modify : (m.modify k f).contains k' = m.contains k' := by
  rw [contains, get?_modify, contains]
  by_cases h : k' = k <;> simp [h]

theorem contains_upsert : (m.upsert k v f).contains k' ↔ k' = k ∨ m.contains k' := contains_insert

end Keys

/-! ## Selection -/

/-- Keeps the entries that pass a test. -/
def filter (p : κ → ν → Bool) (m : FinMap κ ν) : FinMap κ ν := ⟨m.tree.filter p⟩

theorem get?_filter (p : κ → ν → Bool) (m : FinMap κ ν) (k : κ) :
    (m.filter p).get? k = (m.get? k).filter (p k) := by
  show (m.tree.filter p)[k]? = _
  simp only [Std.ExtTreeMap.getElem?_filter, Std.ExtTreeMap.getKey_eq, Option.pfilter_eq_filter]
  rfl

/-! ## Maps made of sets -/

/-- The map that sends each member of a set to a value of its own. -/
def ofKeys (s : FinSet κ) (f : κ → ν) : FinMap κ ν :=
  s.toList.foldl (fun m k ↦ m.insert k (f k)) ∅

theorem get?_ofKeys (s : FinSet κ) (f : κ → ν) (k : κ) :
    (ofKeys s f).get? k = if k ∈ s then some (f k) else none := by
  classical
  suffices ∀ (l : List κ) (m : FinMap κ ν),
      (l.foldl (fun m k ↦ m.insert k (f k)) m).get? k =
        if k ∈ l then some (f k) else m.get? k by
    simpa [ofKeys] using this s.toList ∅
  intro l
  induction l with
  | nil => simp
  | cons a rest ih =>
    intro m
    rw [List.foldl_cons, ih, get?_insert]
    by_cases h : k = a <;> simp [h]

end FinMap

end Taxonomy
