import Taxonomy.Proofs.Hierarchy.Bounds
import Taxonomy.Proofs.Hierarchy.Generation
import Taxonomy.Representation.Memo

/-!
# Memos remember what is so

A memo is `Sound` for a hierarchy if it is of no later generation and, if it is of the same one, all
it remembers are bounds of the hierarchy. The test for the generation is made when the memo is used
and not when the hierarchy changes, so a memo of an earlier generation may remember anything.

A pair of types is remembered once for both of its orders. That is sound because bounds are
symmetric (`Hierarchy.boundsAt_of`).
-/

namespace Taxonomy

variable {h k : Hierarchy} {memo memo' : Memo} {key : MemoKey} {bounds : List Ty}

/-- The bounds that a key is for. -/
def Hierarchy.boundsAt (h : Hierarchy) (key : MemoKey) : List Ty :=
  (h.bounds key.bound key.low key.high).toList

/-- The key of two types is for their bounds in either order. -/
theorem Hierarchy.boundsAt_of (hm : h.Mirrored) (b : Bound) (left right : Ty) :
    h.boundsAt (.of b left right) = (h.bounds b left right).toList := by
  rw [boundsAt, MemoKey.of]
  split
  · rfl
  · rw [bounds_comm hm]

namespace Memo

/-- `p` holds of every entry. -/
def Every (memo : Memo) (p : MemoKey → List Ty → Prop) : Prop :=
  ∀ key bounds, memo.find? key = some bounds → p key bounds

/-- All that is remembered are bounds of a hierarchy. -/
def Remembers (memo : Memo) (h : Hierarchy) : Prop :=
  ∀ key bounds, memo.find? key = some bounds → bounds = h.boundsAt key

/-- A memo is never of a later generation, and what one of the same remembers is so. -/
structure Sound (memo : Memo) (h : Hierarchy) : Prop where
  generation_le : memo.generation ≤ h.generation
  remembers : memo.generation = h.generation → memo.Remembers h

theorem not_find?_empty {generation capacity hits misses : Nat} :
    (⟨capacity, generation, ∅, hits, misses⟩ : Memo).find? key ≠ some bounds := by
  intro hfind
  have hmem := Recent.mem_toList_iff.2 hfind
  rw [Recent.toList_empty] at hmem
  exact List.not_mem_nil hmem

theorem every_empty {p : MemoKey → List Ty → Prop} {generation capacity hits misses : Nat} :
    Every ⟨capacity, generation, ∅, hits, misses⟩ p :=
  fun _ _ hfind ↦ absurd hfind not_find?_empty

/-- A memo that remembers nothing is sound if it is not of a later generation. -/
theorem Sound.of_empty {generation capacity hits misses : Nat} (hle : generation ≤ h.generation) :
    Sound ⟨capacity, generation, ∅, hits, misses⟩ h := ⟨hle, fun _ ↦ every_empty⟩

/-- A memo that remembers less is sound. -/
theorem Sound.mono (hs : memo.Sound h) (hgeneration : memo'.generation = memo.generation)
    (hfind : ∀ key bounds, memo'.find? key = some bounds → memo.find? key = some bounds) :
    memo'.Sound h where
  generation_le := hgeneration ▸ hs.generation_le
  remembers heq key bounds hmemo :=
    hs.remembers (hgeneration ▸ heq) key bounds (hfind key bounds hmemo)

/-- A memo survives a change of the hierarchy that is counted. -/
theorem Sound.of_counted (hs : memo.Sound h) (hk : h.Counted k) : memo.Sound k where
  generation_le := Nat.le_trans hs.generation_le hk.generation_le
  remembers heq key bounds hfind := by
    -- the memo is as old as both hierarchies, so there has been no change of structure
    have hle : memo.generation ≤ h.generation := hs.generation_le
    have hcounted : h.generation ≤ k.generation := hk.generation_le
    have hsame : k.generation = h.generation := by omega
    rw [Hierarchy.boundsAt, (hk.sameStructure hsame).bounds_eq]
    exact hs.remembers (heq.trans hsame) key bounds hfind

/-! ## Use -/

/-- Dropping is reported or not; what is left is the same. -/
theorem value_refresh (memo : Memo) (generation : Nat) : (memo.refresh generation).value =
    if memo.generation = generation then memo
    else { memo with entries := ∅, generation := generation } := by
  rw [Memo.refresh]
  split
  · rfl
  · cases memo.entries.isEmpty <;> rfl

namespace Every

variable {p : MemoKey → List Ty → Prop}

theorem refresh (he : memo.Every p) (generation : Nat) :
    (memo.refresh generation).value.Every p := by
  rw [value_refresh]
  split
  · exact he
  · exact every_empty

/-- What is found after a use is what was used, or was found before. -/
private theorem of_find?_use (he : memo.Every p) (hp : p key bounds) {key' : MemoKey}
    {bounds' : List Ty} (hfind : (memo.entries.use key bounds).find? key' = some bounds') :
    p key' bounds' := by
  rcases Recent.eq_or_find?_of_find?_use hfind with ⟨rfl, rfl⟩ | hold
  · exact hp
  · exact he key' bounds' hold

theorem hit (he : memo.Every p) (hp : p key bounds) : (memo.hit key bounds).Every p :=
  fun _ _ hfind ↦ he.of_find?_use hp hfind

/-- Whatever has to make room, `p` holds of what is left. -/
theorem put (he : memo.Every p) (hp : p key bounds) : (memo.miss.put key bounds).Every p := by
  intro key' bounds' hfind
  rw [find?, Memo.put] at hfind
  dsimp only at hfind
  split at hfind
  · exact he.of_find?_use hp (Recent.find?_of_find?_dropOldest hfind)
  · exact he.of_find?_use hp hfind

end Every

/-- After it has been refreshed a memo is of the present generation. -/
theorem Sound.refresh (hs : memo.Sound h) :
    (memo.refresh h.generation).value.generation = h.generation ∧
      (memo.refresh h.generation).value.Remembers h := by
  rw [value_refresh]
  split
  · rename_i heq
    exact ⟨heq, hs.remembers heq⟩
  · exact ⟨rfl, every_empty⟩

theorem Remembers.sound (hr : memo.Remembers h) (heq : memo.generation = h.generation) :
    memo.Sound h := ⟨Nat.le_of_eq heq, fun _ ↦ hr⟩

/-- Using an entry that is right keeps a memo right. -/
theorem Remembers.hit (hr : memo.Remembers h) (hbounds : bounds = h.boundsAt key) :
    (memo.hit key bounds).Remembers h := Every.hit hr hbounds

theorem Remembers.put (hr : memo.Remembers h) (hbounds : bounds = h.boundsAt key) :
    (memo.miss.put key bounds).Remembers h := Every.put hr hbounds

end Memo

end Taxonomy
