import Mathlib.Data.List.Induction
import Taxonomy.Proofs.Representation.Agreement
import Taxonomy.Proofs.Representation.Capacity

/-!
# Which look-ups a memo helps

What a memo holds depends on what it has been used for and on nothing else, and
`Tracks.memo_holds_latest` says how.

A use *disturbs* a memo if it clears it or moves the generation. Of the keys looked up since the
last use that did (`Since`), each taken once and the latest first (`latestKeys`), the memo holds as
many as its capacity allows. One use keeps that so (`Tracks.exists_memo_apply`), hence every history does
(`Tracks.exists_memo_after`). It matters that generations never go back: a memo that has missed a
change knows that it has.
-/

namespace Taxonomy.Representation

variable {r inner : Representation} {h : Hierarchy} {memo : Memo} {capacity : Nat}

/-! ## Histories -/

/-- What a representation with a memo is used for. -/
inductive Use where
  | bounds (bound : Bound) (left right : Ty)
  | subsumes (general specific : Ty)
  | edit (spelling : Spelling) (request : Request Hierarchy)
  /-- The memo is cleared. -/
  | clear

namespace Use

/-- What a use leaves. -/
def apply (r : Representation) : Use → Representation
  | bounds b left right => (r.lookUpBounds b left right).value.2
  | subsumes general specific => (r.lookUpSubsumes general specific).value.2
  | edit spelling request => r.withHierarchy (r.hierarchy.serve spelling request).value.1
  | clear => r.clearMemo

/-- The hierarchies that a use takes over. -/
def sources : Use → List Hierarchy
  | edit _ request => request.sources
  | _ => []

/-- The key that bounds are looked up under. -/
def key? : Use → Option MemoKey
  | bounds b left right => some (.of b left right)
  | _ => none

def isClear : Use → Bool
  | clear => true
  | _ => false

theorem key?_eq_some_iff {use : Use} {key : MemoKey} :
    use.key? = some key ↔ ∃ b left right, use = .bounds b left right ∧ .of b left right = key := by
  cases use with
  | bounds b left right => simp [key?]
  | subsumes general specific => simp [key?]
  | edit spelling request => simp [key?]
  | clear => simp [key?]

end Use

variable {use : Use} {uses before since part : List Use}

/-- What uses leave, one after another. -/
def after (r : Representation) (uses : List Use) : Representation := uses.foldl Use.apply r

@[simp] theorem after_append : r.after (before ++ uses) = (r.after before).after uses :=
  List.foldl_append

/-- The use clears the memo or moves the generation. -/
def Disturbs (r : Representation) (use : Use) : Prop :=
  use.isClear ∨ (use.apply r).hierarchy.generation ≠ r.hierarchy.generation

instance : Decidable (r.Disturbs use) := inferInstanceAs (Decidable (_ ∨ _))

/-- None of the uses clears the memo or moves the generation. -/
def Undisturbed (r : Representation) : List Use → Prop
  | [] => True
  | use :: rest => ¬ r.Disturbs use ∧ (use.apply r).Undisturbed rest

instance decidableUndisturbed : (r : Representation) → (uses : List Use) →
    Decidable (r.Undisturbed uses)
  | _, [] => .isTrue trivial
  | r, use :: rest =>
    have := decidableUndisturbed (use.apply r) rest
    inferInstanceAs (Decidable (_ ∧ _))

theorem undisturbed_append :
    r.Undisturbed (before ++ uses) ↔ r.Undisturbed before ∧ (r.after before).Undisturbed uses := by
  induction before generalizing r with
  | nil => exact (and_iff_right trivial).symm
  | cons use rest ih => exact (and_congr_right fun _ ↦ ih).trans and_assoc.symm

/-- `since` are the uses since the last that disturbed the memo. -/
def Since (r : Representation) (uses since : List Use) : Prop :=
  ∃ before, uses = before ++ since ∧
    (before = [] ∨ ∃ earlier last, before = earlier ++ [last] ∧ (r.after earlier).Disturbs last) ∧
    (r.after before).Undisturbed since

namespace Since

theorem nil (r : Representation) : r.Since [] [] := ⟨[], rfl, .inl rfl, trivial⟩

theorem of_disturbs (hu : (r.after uses).Disturbs use) : r.Since (uses ++ [use]) [] :=
  ⟨uses ++ [use], (List.append_nil _).symm, .inr ⟨uses, use, rfl, hu⟩, trivial⟩

theorem concat (hs : r.Since uses since) (hu : ¬ (r.after uses).Disturbs use) :
    r.Since (uses ++ [use]) (since ++ [use]) := by
  obtain ⟨before, rfl, hbefore, hsince⟩ := hs
  refine ⟨before, List.append_assoc .., hbefore, undisturbed_append.2 ⟨hsince, ?_, trivial⟩⟩
  rwa [after_append] at hu

/-- There is no longer part at the end that is undisturbed. -/
theorem suffix (hs : r.Since (before ++ part) since) (hpart : (r.after before).Undisturbed part) :
    part <:+ since := by
  obtain ⟨earlier, heq, hearlier, -⟩ := hs
  rcases List.append_eq_append_iff.1 heq with ⟨middle, rfl, rfl⟩ | ⟨middle, rfl, rfl⟩
  · -- the part begins earlier, with what disturbed the memo last
    rcases List.eq_nil_or_concat' middle with rfl | ⟨middle, last, rfl⟩
    · exact List.suffix_refl _
    · obtain ⟨hmiddle, -⟩ := undisturbed_append.1 hpart
      obtain ⟨-, hlast, -⟩ := undisturbed_append.1 hmiddle
      rcases hearlier with hnil | ⟨earlier, last', heq', hdisturbs⟩
      · simp at hnil
      · rw [← List.append_assoc] at heq'
        obtain ⟨rfl, hsingle⟩ := List.append_inj' heq' rfl
        obtain rfl : last = last' := List.singleton_inj.1 hsingle
        rw [after_append] at hdisturbs
        exact absurd hdisturbs hlast
  · exact List.suffix_append ..

theorem undisturbed (hs : r.Since uses (before ++ part)) :
    ∃ first, uses = first ++ part ∧ (r.after first).Undisturbed part := by
  obtain ⟨earlier, rfl, -, hsince⟩ := hs
  refine ⟨earlier ++ before, (List.append_assoc ..).symm, ?_⟩
  rw [after_append]
  exact (undisturbed_append.1 hsince).2

end Since

/-- The keys looked up, each once, the one looked up last first. -/
def latestKeys (uses : List Use) : List MemoKey := FinSet.firsts (uses.filterMap Use.key?).reverse

/-- The look-ups of bounds since the memo was cleared last. -/
def lookUpsSinceClear (uses : List Use) : Nat :=
  (uses.reverse.takeWhile (!·.isClear)).countP (·.key?.isSome)

theorem latestKeys_concat (uses : List Use) (use : Use) : latestKeys (uses ++ [use]) =
    match use.key? with
    | some key => key :: (latestKeys uses).filter (· ≠ key)
    | none => latestKeys uses := by
  rw [latestKeys, List.filterMap_append, List.reverse_append]
  cases hkey : use.key? with
  | none => simp [hkey, latestKeys]
  | some key => simp [hkey, latestKeys, FinSet.firsts_cons]

theorem lookUpsSinceClear_concat (uses : List Use) (use : Use) :
    lookUpsSinceClear (uses ++ [use]) =
      if use.isClear then 0
      else lookUpsSinceClear uses + if use.key?.isSome then 1 else 0 := by
  rw [lookUpsSinceClear, List.reverse_append, List.reverse_singleton, List.singleton_append,
    List.takeWhile_cons]
  cases use.isClear with
  | true => rfl
  | false => exact List.countP_cons

/-- A key is among the latest if it has been looked up, nothing has disturbed the memo since, and
few other keys have been looked up since the latest look-up. -/
theorem Since.mem_take_latestKeys_iff (hs : r.Since uses since) {key : MemoKey} {n : Nat}
    (hlook : ∀ before b left right later, uses = before ++ .bounds b left right :: later →
      ¬ (r.after before).Disturbs (.bounds b left right)) :
    key ∈ (latestKeys since).take n ↔ ∃ before b left right later,
      uses = before ++ .bounds b left right :: later ∧ .of b left right = key ∧
      (r.after (before ++ [.bounds b left right])).Undisturbed later ∧
      key ∉ latestKeys later ∧ (latestKeys later).length < n := by
  rw [latestKeys, FinSet.mem_take_firsts_iff]
  constructor
  · rintro ⟨front, back, heq, hnot, hlt⟩
    rw [List.reverse_eq_append_iff, List.reverse_cons, List.append_assoc,
      List.singleton_append] at heq
    obtain ⟨earlier, rest, rfl, -, hrest⟩ := List.filterMap_eq_append_iff.1 heq
    obtain ⟨between, use, later, rfl, -, hkey, hlater⟩ := List.filterMap_eq_cons_iff.1 hrest
    obtain ⟨b, left, right, rfl, hof⟩ := Use.key?_eq_some_iff.1 hkey
    rw [← List.append_assoc] at hs
    obtain ⟨first, rfl, -, hundisturbed⟩ := hs.undisturbed
    refine ⟨first, b, left, right, later, rfl, hof, ?_, ?_⟩
    · rw [after_append]
      exact hundisturbed
    · rw [latestKeys, hlater, List.reverse_reverse, FinSet.mem_firsts]
      exact ⟨hnot, hlt⟩
  · rintro ⟨before, b, left, right, later, rfl, rfl, hundisturbed, hnot, hlt⟩
    rw [after_append] at hundisturbed
    obtain ⟨earlier, rfl⟩ := hs.suffix ⟨hlook _ _ _ _ _ rfl, hundisturbed⟩
    refine ⟨(later.filterMap Use.key?).reverse, (earlier.filterMap Use.key?).reverse, ?_, ?_, hlt⟩
    · simp [Use.key?]
    · rwa [latestKeys, FinSet.mem_firsts] at hnot

/-! ## What histories keep -/

/-- A use is a step. -/
theorem Use.exists_step (hsources : ∀ k ∈ use.sources, k.Grown) :
    ∃ h', Step r h (use.apply r) h' := by
  cases use with
  | bounds b left right =>
    exact ⟨h, .ask (x := .bounds b left right .done) (.bounds (.done _ _))⟩
  | subsumes general specific =>
    exact ⟨h, .ask (x := .subsumes general specific .done) (.subsumes (.done _ _))⟩
  | edit spelling request => exact ⟨_, .request spelling hsources⟩
  | clear => exact ⟨h, .clearMemo⟩

namespace Tracks

theorem apply (ht : Tracks r h) (hsources : ∀ k ∈ use.sources, k.Grown) :
    ∃ h', Tracks (use.apply r) h' ∧
      r.hierarchy.generation ≤ (use.apply r).hierarchy.generation := by
  obtain ⟨h', hstep⟩ := use.exists_step (h := h) hsources
  obtain ⟨hfaithful, hcounted⟩ := hstep.faithful ht.faithful
  refine ⟨h', ht.step hstep, ?_⟩
  rw [ht.faithful.hierarchy_eq, hfaithful.hierarchy_eq]
  exact hcounted.generation_le

theorem after (ht : Tracks r h) (hsources : ∀ use ∈ uses, ∀ k ∈ use.sources, k.Grown) :
    ∃ h', Tracks (r.after uses) h' := by
  induction uses generalizing r h with
  | nil => exact ⟨h, ht⟩
  | cons use rest ih =>
    obtain ⟨huse, hrest⟩ := List.forall_mem_cons.1 hsources
    obtain ⟨h', htracks, -⟩ := ht.apply huse
    exact ih htracks hrest

/-- Looking up bounds leaves the hierarchy as it is. -/
theorem not_disturbs_bounds (ht : Tracks r h) (b : Bound) (left right : Ty) :
    ¬ r.Disturbs (.bounds b left right) := by
  have hsame : ((Use.bounds b left right).apply r).hierarchy = r.hierarchy :=
    (ht.faithful.sound.lookUpBounds ht.faithful.mirrored b left right).hierarchy_eq
  rintro (hclear | hmoved)
  · exact Bool.false_ne_true hclear
  · rw [hsame] at hmoved
    exact hmoved rfl

theorem not_disturbs_bounds_after (ht : Tracks r h)
    (hsources : ∀ use ∈ before, ∀ k ∈ use.sources, k.Grown) (b : Bound) (left right : Ty) :
    ¬ (r.after before).Disturbs (.bounds b left right) := by
  obtain ⟨h', hbefore⟩ := ht.after hsources
  exact hbefore.not_disturbs_bounds b left right

/-- A use that is none of the memo's business leaves it as it is. -/
theorem holds_of_kept {inner' : Representation} (ht : Tracks (memoized memo inner) h)
    (hsources : ∀ k ∈ use.sources, k.Grown)
    (heq : use.apply (memoized memo inner) = memoized memo inner') (hkey : use.key? = none)
    (hclear : use.isClear = false)
    (hholds : memo.Holds capacity inner.hierarchy.generation (latestKeys since)) :
    ((memoized memo inner).Disturbs use → memo.Holds capacity inner'.hierarchy.generation []) ∧
      (¬ (memoized memo inner).Disturbs use →
        memo.Holds capacity inner'.hierarchy.generation (latestKeys (since ++ [use]))) := by
  have hdisturbs : (memoized memo inner).Disturbs use ↔
      inner'.hierarchy.generation ≠ inner.hierarchy.generation := by
    rw [Disturbs, heq, hclear]
    exact or_iff_right Bool.false_ne_true
  rw [hdisturbs, latestKeys_concat, hkey]
  constructor
  · intro hne
    obtain ⟨-, -, hle⟩ := ht.apply hsources
    rw [heq] at hle
    exact hholds.of_lt (Nat.lt_of_le_of_ne hle hne.symm)
  · intro hsame
    rw [not_not.1 hsame]
    exact hholds

/-- A use keeps the memo in step with the history. -/
theorem exists_memo_apply (ht : Tracks (memoized memo inner) h)
    (hsources : ∀ k ∈ use.sources, k.Grown)
    (hholds : memo.Holds capacity inner.hierarchy.generation (latestKeys since)) :
    ∃ memo' inner', use.apply (memoized memo inner) = memoized memo' inner' ∧
      ((memoized memo inner).Disturbs use →
        memo'.Holds capacity inner'.hierarchy.generation []) ∧
      (¬ (memoized memo inner).Disturbs use →
        memo'.Holds capacity inner'.hierarchy.generation (latestKeys (since ++ [use]))) ∧
      memo'.hits + memo'.misses =
        if use.isClear then 0
        else memo.hits + memo.misses + if use.key?.isSome then 1 else 0 := by
  cases use with
  | bounds b left right =>
    obtain ⟨memo', inner', heq, hholds', hhit, hmiss⟩ :=
      exists_lookUpBounds hholds (FinSet.nodup_firsts _) b left right
    have hkept := (ht.faithful.sound.lookUpBounds ht.faithful.mirrored b left right).hierarchy_eq
    rw [heq] at hkept
    have hsame : inner'.hierarchy = inner.hierarchy := hkept
    refine ⟨memo', inner', heq, fun hd ↦ absurd hd (ht.not_disturbs_bounds b left right),
      fun _ ↦ ?_, ?_⟩
    · rw [hsame, latestKeys_concat]
      exact hholds'
    · change memo'.hits + memo'.misses = memo.hits + memo.misses + 1
      by_cases hkey : .of b left right ∈ (latestKeys since).take capacity
      · obtain ⟨hhits, hmisses⟩ := hhit hkey
        omega
      · obtain ⟨hhits, hmisses⟩ := hmiss hkey
        omega
  | subsumes general specific =>
    obtain ⟨hd, hu⟩ := ht.holds_of_kept hsources rfl rfl rfl hholds
    exact ⟨memo, _, rfl, hd, hu, rfl⟩
  | edit spelling request =>
    obtain ⟨hd, hu⟩ := ht.holds_of_kept hsources rfl rfl rfl hholds
    exact ⟨memo, _, rfl, hd, hu, rfl⟩
  | clear =>
    exact ⟨memo.clear, inner, rfl, fun _ ↦ hholds.clear, fun hu ↦ absurd (.inl rfl) hu, rfl⟩

/-- What a history keeps: the memo holds the latest keys since it was disturbed, and has counted the
look-ups since it was cleared. -/
theorem exists_memo_after (ht : Tracks r h) (capacity : Nat)
    (hsources : ∀ use ∈ uses, ∀ k ∈ use.sources, k.Grown) :
    ∃ memo inner since, (r.memoize capacity).after uses = memoized memo inner ∧
      (r.memoize capacity).Since uses since ∧
      memo.Holds capacity inner.hierarchy.generation (latestKeys since) ∧
      memo.hits + memo.misses = lookUpsSinceClear uses := by
  induction uses using List.reverseRecOn with
  | nil =>
    refine ⟨_, r, [], rfl, .nil _, ⟨rfl, Nat.le_refl _, fun _ ↦ ?_, fun hne ↦ absurd rfl hne⟩, rfl⟩
    exact List.take_nil.symm
  | append_singleton uses use ih =>
    have huses : ∀ use ∈ uses, ∀ k ∈ use.sources, k.Grown := fun use huse ↦
      hsources use (List.mem_append_left _ huse)
    obtain ⟨memo, inner, since, hafter, hsince, hholds, hcount⟩ := ih huses
    obtain ⟨h', htracks⟩ := (ht.memoize capacity).after huses
    rw [hafter] at htracks
    obtain ⟨memo', inner', heq, hdisturbed, hundisturbed, hcount'⟩ := htracks.exists_memo_apply
      (hsources use (List.mem_append_right _ List.mem_cons_self)) hholds
    have hafter' : (r.memoize capacity).after (uses ++ [use]) = memoized memo' inner' := by
      rw [after_append, hafter]
      exact heq
    rw [hcount, ← lookUpsSinceClear_concat] at hcount'
    by_cases hd : (memoized memo inner).Disturbs use
    · exact ⟨memo', inner', [], hafter', .of_disturbs (hafter ▸ hd), hdisturbed hd, hcount'⟩
    · exact ⟨memo', inner', since ++ [use], hafter', hsince.concat (hafter ▸ hd),
        hundisturbed hd, hcount'⟩

/-- **A memo holds what was looked up latest.** Whatever a representation with a memo has been used
for, the next look-up of bounds is a hit if the same bound of the same two types, in either order,
has been looked up, nothing has disturbed the memo since, and since the latest such look-up fewer
other keys were looked up than the memo has room for; else it is a miss. After it the memo holds, of
the keys looked up since it was last disturbed, the latest, as many as it has room for. Hits and
misses add up to the look-ups since the memo was cleared last. -/
theorem memo_holds_latest (ht : Tracks r h) (capacity : Nat)
    (hsources : ∀ use ∈ uses, ∀ k ∈ use.sources, k.Grown) (b : Bound) (left right : Ty) :
    ∃ memo memo',
      ((r.memoize capacity).after uses).memo? = some memo ∧
      ((r.memoize capacity).after (uses ++ [.bounds b left right])).memo? = some memo' ∧
      (memo'.hits = memo.hits + 1 ∧ memo'.misses = memo.misses ∨
        memo'.hits = memo.hits ∧ memo'.misses = memo.misses + 1) ∧
      (memo'.hits = memo.hits + 1 ↔ ∃ before b' left' right' later,
        uses = before ++ .bounds b' left' right' :: later ∧
        (b' = b ∧ (left' = left ∧ right' = right ∨ left' = right ∧ right' = left)) ∧
        ((r.memoize capacity).after (before ++ [.bounds b' left' right'])).Undisturbed later ∧
        .of b left right ∉ latestKeys later ∧ (latestKeys later).length < capacity) ∧
      (∃ since, (r.memoize capacity).Since (uses ++ [.bounds b left right]) since ∧
        memo'.keys = (latestKeys since).take capacity ∧
        memo'.entries.size = min capacity (latestKeys since).length) ∧
      memo.hits + memo.misses = lookUpsSinceClear uses := by
  obtain ⟨memo, inner, since, hafter, hsince, hholds, hcount⟩ :=
    ht.exists_memo_after capacity hsources
  obtain ⟨memo', inner', heq, hholds', hhit, hmiss⟩ :=
    exists_lookUpBounds hholds (FinSet.nodup_firsts _) b left right
  have hafter' : (r.memoize capacity).after (uses ++ [.bounds b left right]) =
      memoized memo' inner' := by
    rw [after_append, hafter]
    exact heq
  have hlook : ∀ before b left right later, uses = before ++ .bounds b left right :: later →
      ¬ ((r.memoize capacity).after before).Disturbs (.bounds b left right) := by
    rintro before b left right later rfl
    exact (ht.memoize capacity).not_disturbs_bounds_after
      (fun use huse ↦ hsources use (List.mem_append_left _ huse)) b left right
  have hlast : ¬ ((r.memoize capacity).after uses).Disturbs (.bounds b left right) :=
    (ht.memoize capacity).not_disturbs_bounds_after hsources b left right
  refine ⟨memo, memo', congrArg memo? hafter, congrArg memo? hafter', ?_, ?_, ?_, hcount⟩
  · by_cases hkey : .of b left right ∈ (latestKeys since).take capacity
    · exact .inl (hhit hkey)
    · exact .inr (hmiss hkey)
  · have hits_iff : memo'.hits = memo.hits + 1 ↔
        .of b left right ∈ (latestKeys since).take capacity := by
      refine ⟨fun hhits ↦ ?_, fun hkey ↦ (hhit hkey).1⟩
      by_contra hkey
      rw [(hmiss hkey).1] at hhits
      omega
    rw [hits_iff, hsince.mem_take_latestKeys_iff hlook]
    simp only [MemoKey.of_eq_of_iff]
  · refine ⟨since ++ [.bounds b left right], hsince.concat hlast, ?_⟩
    have hkeys : memo'.keys = (latestKeys (since ++ [.bounds b left right])).take capacity := by
      rw [latestKeys_concat]
      refine hholds'.keys_eq (by_contra fun hne ↦ ?_)
      exact List.cons_ne_nil _ _ (hholds'.eq_nil hne)
    refine ⟨hkeys, ?_⟩
    rw [← List.length_take, ← hkeys, Memo.keys, List.length_map, Recent.length_toList]

end Tracks

/-- A bound is looked up, and again after a change. Then another one is, as well as subsumption, and
the hierarchy is annotated. -/
def errands : List Use :=
  [.bounds .leastUpper (.named "a") (.named "c"), .edit {} (.add "d" ["c"]),
    .bounds .leastUpper (.named "a") (.named "c"), .bounds .greatestLower (.named "c") (.named "a"),
    .subsumes (.named "a") (.named "c"), .edit {} (.setOwnAttribute "note" (.integer 1))]

/-- With room for two, a bound is held although the other one has been looked up since. -/
theorem memo_holds_latest_knot :
    Tracks (plain Hierarchy.knot) Hierarchy.knot ∧
    (∀ use ∈ errands, ∀ k ∈ use.sources, k.Grown) ∧
    ∃ memo memo',
      (((plain Hierarchy.knot).memoize 2).after errands).memo? = some memo ∧
      (((plain Hierarchy.knot).memoize 2).after
        (errands ++ [.bounds .leastUpper (.named "c") (.named "a")])).memo? = some memo' ∧
      memo'.hits = memo.hits + 1 ∧ memo.hits + memo.misses = 3 := by
  have htracks : Tracks (plain Hierarchy.knot) Hierarchy.knot := .plain Hierarchy.grown_knot
  have hsources : ∀ use ∈ errands, ∀ k ∈ use.sources, k.Grown := by
    simp [errands, Use.sources, Request.sources]
  obtain ⟨memo, memo', hmemo, hmemo', -, hhit, -, hcount⟩ :=
    htracks.memo_holds_latest 2 hsources .leastUpper (.named "c") (.named "a")
  refine ⟨htracks, hsources, memo, memo', hmemo, hmemo', hhit.2 ?_, hcount⟩
  refine ⟨errands.take 2, .leastUpper, .named "a", .named "c", errands.drop 3, rfl,
    ⟨rfl, .inr ⟨rfl, rfl⟩⟩, ?_, ?_, ?_⟩
  · decide +kernel
  · decide +kernel
  · decide +kernel

end Taxonomy.Representation
