import Taxonomy.Text.Separated

/-!
# Sets of small numbers as bits

A `BitSet` holds natural numbers as the bits of one number, so that the intersection of two sets is
a single operation. `contains` is the view: each operation comes with the lemma that says what it
does to it.
-/

namespace Taxonomy

/-- A finite set of natural numbers. -/
structure BitSet where
  /-- Bit `n` is set exactly if `n` is a member. -/
  bits : Nat
deriving DecidableEq, Inhabited

namespace BitSet

instance : EmptyCollection BitSet := ⟨⟨0⟩⟩

/-- Whether `n` is a member. -/
def contains (s : BitSet) (n : Nat) : Bool := s.bits.testBit n

/-- Adds a member. -/
def insert (s : BitSet) (n : Nat) : BitSet := ⟨s.bits ||| 1 <<< n⟩

/-- Takes a member away. -/
def erase (s : BitSet) (n : Nat) : BitSet :=
  if s.contains n then ⟨s.bits ^^^ 1 <<< n⟩ else s

/-- Adds a member, and tells whether it is new. -/
def insertNew (s : BitSet) (n : Nat) : Bool × BitSet := (!s.contains n, s.insert n)

/-- Takes a member away, and tells whether there was one. -/
def eraseOld (s : BitSet) (n : Nat) : Bool × BitSet := (s.contains n, s.erase n)

/-- The members of both sets. -/
def inter (s t : BitSet) : BitSet := ⟨s.bits &&& t.bits⟩

/-- Whether there is no member. -/
def isEmpty (s : BitSet) : Bool := s.bits == 0

/-- The set of the elements of a list. -/
def ofList (l : List Nat) : BitSet := l.foldl insert ∅

/-- The places of the bits set among the lowest `1 <<< depth`, ascending. Each half is listed for
itself and without bits there is nothing to list, so the work goes by the bits set and not by their
places. -/
def places : Nat → Nat → List Nat
  | 0, bits => if bits.testBit 0 then [0] else []
  | depth + 1, bits =>
    if bits = 0 then []
    else
      let half := 1 <<< depth
      places depth (bits &&& (1 <<< half - 1)) ++ (places depth (bits >>> half)).map (half + ·)

/-- The members, ascending. No member exceeds the place of the highest bit. -/
def toList (s : BitSet) : List Nat := places (s.bits.log2.log2 + 1) s.bits

/-- The members in braces, separated by commas. -/
def display (s : BitSet) : String :=
  "\x7b" ++ Text.separated ", " (s.toList.map Nat.repr) ++ "\x7d"

/-! ## Membership -/

@[simp] theorem contains_empty (n : Nat) : (∅ : BitSet).contains n = false := Nat.zero_testBit n

@[simp] theorem contains_insert (s : BitSet) (m n : Nat) :
    (s.insert m).contains n = (s.contains n || decide (m = n)) := by
  simp [contains, insert, Nat.testBit_or, Nat.one_shiftLeft, Nat.testBit_two_pow]

@[simp] theorem contains_erase (s : BitSet) (m n : Nat) :
    (s.erase m).contains n = (s.contains n && !decide (m = n)) := by
  rw [erase]
  split
  · rename_i h
    by_cases hmn : m = n
    · subst hmn
      have : s.bits.testBit m = true := h
      simp [contains, Nat.testBit_xor, Nat.one_shiftLeft, this]
    · simp [contains, Nat.testBit_xor, Nat.one_shiftLeft, hmn]
  · rename_i h
    by_cases hmn : m = n
    · subst hmn
      simp [h]
    · simp [hmn]

@[simp] theorem contains_inter (s t : BitSet) (n : Nat) :
    (s.inter t).contains n = (s.contains n && t.contains n) := Nat.testBit_and ..

theorem isEmpty_iff {s : BitSet} : s.isEmpty ↔ ∀ n, s.contains n = false := by
  refine ⟨fun h n ↦ ?_, fun h ↦ ?_⟩
  · have h0 : s.bits = 0 := eq_of_beq h
    rw [contains, h0, Nat.zero_testBit]
  · have h0 : s.bits = 0 := Nat.eq_of_testBit_eq fun n ↦ by
      rw [Nat.zero_testBit]
      exact h n
    rw [isEmpty, h0]
    rfl

theorem mem_places {depth bits n : Nat} :
    n ∈ places depth bits ↔ n < 1 <<< depth ∧ bits.testBit n := by
  induction depth generalizing bits n with
  | zero =>
    rw [places]
    split
    · rename_i h
      simp only [List.mem_singleton, Nat.shiftLeft_zero, Nat.lt_one_iff]
      exact ⟨fun hn ↦ ⟨hn, hn ▸ h⟩, And.left⟩
    · rename_i h
      simp only [List.not_mem_nil, Nat.shiftLeft_zero, Nat.lt_one_iff, false_iff]
      exact fun ⟨hn, hbit⟩ ↦ h (hn ▸ hbit)
  | succ depth ih =>
    rw [places]
    split
    · rename_i h
      simp [h]
    · simp only [List.mem_append, List.mem_map, ih, Nat.testBit_and, Nat.testBit_shiftRight,
        Nat.one_shiftLeft, Nat.testBit_two_pow_sub_one, Bool.and_eq_true, decide_eq_true_eq]
      have hdouble : 2 ^ (depth + 1) = 2 ^ depth + 2 ^ depth := by rw [Nat.pow_succ, Nat.mul_two]
      constructor
      · rintro (⟨hlt, hbit, -⟩ | ⟨m, ⟨hm, hbit⟩, rfl⟩)
        · exact ⟨by omega, hbit⟩
        · exact ⟨by omega, hbit⟩
      · -- a place is in the lower half, or in the upper one and shifted
        rintro ⟨hlt, hbit⟩
        by_cases hn : n < 2 ^ depth
        · exact .inl ⟨hn, hbit, hn⟩
        · obtain ⟨m, rfl⟩ := Nat.exists_eq_add_of_le (Nat.le_of_not_lt hn)
          exact .inr ⟨m, ⟨by omega, hbit⟩, rfl⟩

theorem pairwise_places (depth bits : Nat) : (places depth bits).Pairwise (· < ·) := by
  induction depth generalizing bits with
  | zero =>
    rw [places]
    split
    · exact List.pairwise_singleton _ _
    · exact .nil
  | succ depth ih =>
    rw [places]
    split
    · exact .nil
    · refine List.pairwise_append.2 ⟨ih _, ?_, ?_⟩
      · rw [List.pairwise_map]
        exact (ih _).imp fun h ↦ Nat.add_lt_add_left h _
      · intro m hm n hn
        obtain ⟨k, -, rfl⟩ := List.mem_map.1 hn
        exact Nat.lt_of_lt_of_le (mem_places.1 hm).1 (Nat.le_add_right ..)

@[simp] theorem mem_toList {s : BitSet} {n : Nat} : n ∈ s.toList ↔ s.contains n := by
  rw [toList, mem_places]
  refine ⟨And.right, fun h ↦ ⟨?_, h⟩⟩
  have hn : s.bits.testBit n = true := h
  have hle : 2 ^ n ≤ s.bits := Nat.ge_two_pow_of_testBit hn
  have h0 : s.bits ≠ 0 := fun h0 ↦ by
    rw [h0, Nat.zero_testBit] at hn
    exact nomatch hn
  rw [Nat.one_shiftLeft]
  exact Nat.lt_of_le_of_lt ((Nat.le_log2 h0).2 hle) Nat.lt_log2_self

theorem pairwise_toList (s : BitSet) : s.toList.Pairwise (· < ·) := pairwise_places _ _

theorem contains_ofList {l : List Nat} {n : Nat} : (ofList l).contains n ↔ n ∈ l := by
  suffices ∀ s : BitSet, (l.foldl insert s).contains n ↔ s.contains n ∨ n ∈ l by
    simpa [ofList] using this ∅
  induction l with
  | nil => simp
  | cons m rest ih =>
    intro s
    rw [List.foldl_cons, ih, contains_insert, List.mem_cons, Bool.or_eq_true, decide_eq_true_eq,
      or_assoc, eq_comm (a := n)]

end BitSet

end Taxonomy
