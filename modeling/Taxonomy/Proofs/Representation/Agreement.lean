import Taxonomy.Proofs.Representation.Compiled
import Taxonomy.Proofs.Representation.Memo
import Taxonomy.Session.Query

/-!
# Representations agree

However a hierarchy is represented, what is asked of it is answered as if it were asked by walking.
Rows and memos lag behind the hierarchy and catch up when they are used, each layer by itself. What
ties them together is `Representation.Sound`: a layer of the present generation is right and a layer
of an earlier one is not used.

## Steps

A history of a representation is made of the steps in `Representation.Step`. Edits act on the
represented hierarchy and on a plain hierarchy alike; the other steps are of no concern to the plain
one. A step may be taken within a memo instead of around it.

How a memo makes room is left open here. A memo may at any time remember less than before
(`Representation.Forgets`), also between two look-ups of one inquiry, so inquiries are answered by a
relation (`Inquiry.Yields`) of which `Inquiry.run` is the case that nothing more is forgotten than
the memo itself drops.
-/

namespace Taxonomy

namespace Representation

variable {h k : Hierarchy} {r r' : Representation}

/-! ## The invariant -/

/-- Each layer is right, or of an earlier generation. -/
def Sound : Representation → Prop
  | plain _ => True
  | compiled c => c.Sound
  | memoized memo inner => memo.Sound inner.hierarchy ∧ inner.Sound

theorem hierarchy_withHierarchy (r : Representation) : (r.withHierarchy h).hierarchy = h := by
  induction r with
  | plain _ => rfl
  | compiled _ => rfl
  | memoized _ _ ih => exact ih

/-- A new layer remembers nothing. -/
theorem Sound.memoize (hs : r.Sound) (capacity : Nat) : (r.memoize capacity).Sound :=
  ⟨.of_empty (Nat.le_refl _), hs⟩

/-- All layers survive a change of the hierarchy that is counted. -/
theorem Sound.withHierarchy (hs : r.Sound) (hk : r.hierarchy.Counted k) :
    (r.withHierarchy k).Sound := by
  induction r with
  | plain _ => trivial
  | compiled c => exact Compiled.Sound.withHierarchy hs hk
  | memoized memo inner ih =>
    refine ⟨?_, ih hs.2 hk⟩
    rw [hierarchy_withHierarchy]
    exact hs.1.of_counted hk

/-- `r'` represents the same hierarchy as `r`, and each of its layers may be used. -/
structure Kept (r r' : Representation) : Prop where
  hierarchy_eq : r'.hierarchy = r.hierarchy
  sound : r'.Sound

/-- A memo makes no difference to what is kept within it. -/
theorem Kept.memoized {memo : Memo} (hk : r.Kept r') (hmemo : memo.Sound r.hierarchy) :
    (memoized memo r).Kept (memoized memo r') where
  hierarchy_eq := hk.hierarchy_eq
  sound := by
    refine ⟨?_, hk.sound⟩
    rw [hk.hierarchy_eq]
    exact hmemo

theorem Sound.setCompiled (hs : r.Sound) (on : Bool) : r.Kept (r.setCompiled on) := by
  induction r with
  | plain _ => exact ⟨rfl, trivial⟩
  | compiled c => exact ⟨rfl, Compiled.Sound.setEnabled hs on⟩
  | memoized memo inner ih => exact (ih hs.2).memoized hs.1

/-- Making rows ahead of time keeps what is represented. -/
theorem Sound.compile (hs : r.Sound) : r.Kept r.compile.value.2 := by
  induction r with
  | plain _ => exact ⟨rfl, trivial⟩
  | compiled c => exact ⟨Compiled.hierarchy_refresh, Compiled.Sound.refresh hs⟩
  | memoized memo inner ih => exact (ih hs.2).memoized hs.1

theorem Sound.clearMemo (hs : r.Sound) : r.Kept r.clearMemo := by
  cases r with
  | plain _ => exact ⟨rfl, trivial⟩
  | compiled _ => exact ⟨rfl, hs⟩
  | memoized memo inner => exact ⟨rfl, .of_empty hs.1.generation_le, hs.2⟩

/-! ## Looking up -/

/-- What looking up comes to: the right answer, and a representation of the same hierarchy. -/
structure LooksUp {α : Type} (r : Representation) (found : α × Representation) (answer : α) :
    Prop where
  eq_answer : found.1 = answer
  hierarchy_eq : found.2.hierarchy = r.hierarchy
  sound : found.2.Sound

theorem LooksUp.kept {α : Type} {found : α × Representation} {answer : α}
    (hl : r.LooksUp found answer) : r.Kept found.2 := ⟨hl.hierarchy_eq, hl.sound⟩

/-- What is looked up later is looked up in the same hierarchy. -/
theorem LooksUp.trans {α β : Type} {found : α × Representation} {answer : α}
    {last : β × Representation} {answer' : β} (hfound : r.LooksUp found answer)
    (hlast : found.2.LooksUp last answer') : r.LooksUp last answer' :=
  ⟨hlast.eq_answer, hlast.hierarchy_eq.trans hfound.hierarchy_eq, hlast.sound⟩

/-- Layer by layer, subsumption is looked up right. -/
theorem Sound.lookUpSubsumes (hs : r.Sound) (hm : r.hierarchy.Mirrored) (general specific : Ty) :
    r.LooksUp (r.lookUpSubsumes general specific).value
      (r.hierarchy.subsumes general specific) := by
  induction r with
  | plain h => exact ⟨rfl, rfl, trivial⟩
  | compiled c =>
    have hvalue := Compiled.Sound.lookUpSubsumes hs hm general specific
    rw [Representation.lookUpSubsumes, Journaled.value_bind, hvalue]
    exact ⟨rfl, Compiled.hierarchy_refresh, Compiled.Sound.refresh hs⟩
  | memoized memo inner ih =>
    have hfound := ih hs.2 hm
    have hkept := hfound.kept.memoized hs.1
    exact ⟨hfound.eq_answer, hkept.hierarchy_eq, hkept.sound⟩

/-- Layer by layer, bounds are looked up right. -/
theorem Sound.lookUpBounds (hs : r.Sound) (hm : r.hierarchy.Mirrored) (b : Bound)
    (left right : Ty) : r.LooksUp (r.lookUpBounds b left right).value
      (r.hierarchy.bounds b left right).toList := by
  induction r with
  | plain h => exact ⟨rfl, rfl, trivial⟩
  | compiled c =>
    have hvalue := Compiled.Sound.lookUpBounds hs hm b left right
    rw [Representation.lookUpBounds, Journaled.value_bind, hvalue]
    have hleft : ∀ last : Compiled, last = c ∨ last = c.refresh.value →
        last.hierarchy = c.hierarchy ∧ last.Sound := by
      rintro last (rfl | rfl)
      · exact ⟨rfl, hs⟩
      · exact ⟨Compiled.hierarchy_refresh, Compiled.Sound.refresh hs⟩
    obtain ⟨hhierarchy, hsound⟩ :=
      hleft (if b = .greatestLower ∧ c.scope.isSome then c else c.refresh.value)
        (ite_eq_or_eq _ _ _)
    exact ⟨rfl, hhierarchy, hsound⟩
  | memoized memo inner ih =>
    obtain ⟨hgeneration, hremembers⟩ := hs.1.refresh
    have hkey := Hierarchy.boundsAt_of hm b left right
    rw [Representation.lookUpBounds, Journaled.value_bind]
    dsimp only
    split
    · -- the memo is of the present generation, so what it remembers is so
      rename_i bounds hfind
      have hbounds := hremembers _ _ hfind
      exact ⟨hbounds.trans hkey, rfl, (hremembers.hit hbounds).sound hgeneration, hs.2⟩
    · -- what is put into the memo is what the inner layer has looked up, hence so
      have hfound := ih hs.2 hm
      have hput := hremembers.put (hfound.eq_answer.trans hkey.symm)
      have hkept := hfound.kept.memoized (hput.sound hgeneration)
      exact ⟨hfound.eq_answer, hkept.hierarchy_eq, hkept.sound⟩

/-! ## Forgetting -/

/-- `r'` is `r`, except that its memos may remember less. -/
inductive Forgets : Representation → Representation → Prop
  | plain (h : Hierarchy) : Forgets (.plain h) (.plain h)
  | compiled (c : Compiled) : Forgets (.compiled c) (.compiled c)
  | memoized {memo memo' : Memo} {inner inner' : Representation}
      (hgeneration : memo'.generation = memo.generation)
      (hfind : ∀ key bounds, memo'.find? key = some bounds → memo.find? key = some bounds)
      (hinner : Forgets inner inner') : Forgets (.memoized memo inner) (.memoized memo' inner')

theorem Sound.forgets (hs : r.Sound) (hf : r.Forgets r') : r.Kept r' := by
  induction hf with
  | plain h => exact ⟨rfl, trivial⟩
  | compiled c => exact ⟨rfl, hs⟩
  | memoized hgeneration hfind _ ih =>
    have hinner := ih hs.2
    refine ⟨hinner.hierarchy_eq, ?_, hinner.sound⟩
    rw [hinner.hierarchy_eq]
    exact hs.1.mono hgeneration hfind

end Representation

/-! ## Inquiries -/

namespace Inquiry

variable {α : Type} {r last : Representation} {x : Inquiry α} {a : α}

/-- An inquiry put to `r` comes to the answer `a` and leaves `last`, with whatever is forgotten on
the way. -/
inductive Yields : Inquiry α → Representation → α → Representation → Prop
  | done (a : α) (r : Representation) : Yields (.done a) r a r
  | forget {x : Inquiry α} {r r' last : Representation} {a : α} (hforgets : r.Forgets r')
      (hrest : Yields x r' a last) : Yields x r a last
  | subsumes {general specific : Ty} {next : Bool → Inquiry α} {r last : Representation} {a : α}
      (hrest : Yields (next (r.lookUpSubsumes general specific).value.1)
        (r.lookUpSubsumes general specific).value.2 a last) :
      Yields (.subsumes general specific next) r a last
  | bounds {b : Bound} {left right : Ty} {next : List Ty → Inquiry α} {r last : Representation}
      {a : α} (hrest : Yields (next (r.lookUpBounds b left right).value.1)
        (r.lookUpBounds b left right).value.2 a last) :
      Yields (.bounds b left right next) r a last
  | note {event : Event} {next : Inquiry α} {r last : Representation} {a : α}
      (hrest : Yields next r a last) : Yields (.note event next) r a last

/-- An inquiry may come to what running it comes to. -/
theorem yields_run (x : Inquiry α) (r : Representation) :
    x.Yields r (x.run r).value.1 (x.run r).value.2 := by
  induction x generalizing r with
  | done a => exact .done a r
  | subsumes general specific next ih => exact .subsumes (ih _ _)
  | bounds b left right next ih => exact .bounds (ih _ _)
  | note event next ih => exact .note (ih r)

/-- **Inquiries are answered as if by walking.** -/
theorem Yields.looksUp (hy : x.Yields r a last) (hs : r.Sound) (hm : r.hierarchy.Mirrored) :
    r.LooksUp (a, last) (x.answer r.hierarchy) := by
  induction hy with
  | done a r => exact ⟨rfl, rfl, hs⟩
  | forget hforgets _ ih =>
    have hkept := hs.forgets hforgets
    have hlast := ih hkept.sound (hkept.hierarchy_eq.symm ▸ hm)
    rw [hkept.hierarchy_eq] at hlast
    exact ⟨hlast.eq_answer, hlast.hierarchy_eq.trans hkept.hierarchy_eq, hlast.sound⟩
  -- a look-up gives the answer that walking gives, so it leads into the same branch
  | @subsumes general specific next r _ _ _ ih =>
    have hfound := hs.lookUpSubsumes hm general specific
    have hlast := ih hfound.sound (hfound.hierarchy_eq.symm ▸ hm)
    rw [hfound.hierarchy_eq, hfound.eq_answer] at hlast
    exact hfound.trans hlast
  | @bounds b left right next r _ _ _ ih =>
    have hfound := hs.lookUpBounds hm b left right
    have hlast := ih hfound.sound (hfound.hierarchy_eq.symm ▸ hm)
    rw [hfound.hierarchy_eq, hfound.eq_answer] at hlast
    exact hfound.trans hlast
  | note _ ih => exact ih hs hm

end Inquiry

namespace Representation

variable {h h' : Hierarchy} {r r' : Representation}

/-! ## Histories -/

/-- A step of a representation, and what a plain hierarchy undergoes meanwhile. -/
inductive Step : Representation → Hierarchy → Representation → Hierarchy → Prop
  /-- An edit. -/
  | request {r : Representation} {h : Hierarchy} (spelling : Spelling) {request : Request Hierarchy}
      (hsources : ∀ k ∈ request.sources, k.Grown) :
      Step r h (r.withHierarchy (r.hierarchy.serve spelling request).value.1)
        (h.serve spelling request).value.1
  /-- Compilation is switched on or off. -/
  | setCompiled {r : Representation} {h : Hierarchy} (on : Bool) : Step r h (r.setCompiled on) h
  /-- Rows are made ahead of time. -/
  | compile {r : Representation} {h : Hierarchy} : Step r h r.compile.value.2 h
  | clearMemo {r : Representation} {h : Hierarchy} : Step r h r.clearMemo h
  /-- Something is asked. -/
  | ask {α : Type} {x : Inquiry α} {r r' : Representation} {h : Hierarchy} {a : α}
      (hy : x.Yields r a r') : Step r h r' h
  | forget {r r' : Representation} {h : Hierarchy} (hforgets : r.Forgets r') : Step r h r' h
  /-- A step is taken within a memo. -/
  | inside {memo : Memo} {inner inner' : Representation} {h h' : Hierarchy}
      (hs : Step inner h inner' h') : Step (.memoized memo inner) h (.memoized memo inner') h'

/-- `r` has been built from a hierarchy and has taken steps since, while a plain hierarchy that was
the same in the beginning has become `h`. -/
inductive Tracks : Representation → Hierarchy → Prop
  | plain {h : Hierarchy} (hg : h.Grown) : Tracks (.plain h) h
  | compiled {h : Hierarchy} (hg : h.Grown) (scope : Option Ty) :
      Tracks (.compiled { hierarchy := h, scope }) h
  | memoize {r : Representation} {h : Hierarchy} (ht : Tracks r h) (capacity : Nat) :
      Tracks (r.memoize capacity) h
  | step {r r' : Representation} {h h' : Hierarchy} (ht : Tracks r h) (hs : Step r h r' h') :
      Tracks r' h'

/-- What a history keeps: the represented hierarchy is the plain one, and each layer is right or
will not be used. -/
structure Faithful (r : Representation) (h : Hierarchy) : Prop where
  grown : h.Grown
  hierarchy_eq : r.hierarchy = h
  sound : r.Sound

theorem Faithful.kept (hf : r.Faithful h) (hk : r.Kept r') : r'.Faithful h :=
  ⟨hf.grown, hk.hierarchy_eq.trans hf.hierarchy_eq, hk.sound⟩

theorem Faithful.mirrored (hf : r.Faithful h) : r.hierarchy.Mirrored :=
  hf.hierarchy_eq ▸ hf.grown.wellFormed.mirrored

/-- What is put to a faithful representation is answered as by walking. -/
theorem Faithful.run {α : Type} (hf : r.Faithful h) (x : Inquiry α) :
    (x.run r).value.1 = x.answer h ∧ (x.run r).value.2.Faithful h := by
  have hfound := (Inquiry.yields_run x r).looksUp hf.sound hf.mirrored
  refine ⟨?_, hf.kept hfound.kept⟩
  rw [← hf.hierarchy_eq]
  exact hfound.eq_answer

/-- A step keeps a representation faithful, and what the plain hierarchy undergoes is counted. -/
theorem Step.faithful (hs : Step r h r' h') (hf : r.Faithful h) :
    r'.Faithful h' ∧ h.Counted h' := by
  induction hs with
  | @request r h spelling request hsources =>
    obtain ⟨hg, rfl, hsound⟩ := hf
    have hcounted := hg.wellFormed.counted_serve spelling request
    exact ⟨⟨hg.serve spelling hsources, hierarchy_withHierarchy _, hsound.withHierarchy hcounted⟩,
      hcounted⟩
  | setCompiled on => exact ⟨hf.kept (hf.sound.setCompiled on), .refl _⟩
  | compile => exact ⟨hf.kept hf.sound.compile, .refl _⟩
  | clearMemo => exact ⟨hf.kept hf.sound.clearMemo, .refl _⟩
  | ask hy => exact ⟨hf.kept (hy.looksUp hf.sound hf.mirrored).kept, .refl _⟩
  | forget hforgets => exact ⟨hf.kept (hf.sound.forgets hforgets), .refl _⟩
  | @inside memo inner inner' h h' _ ih =>
    -- the memo learns nothing of the step; that the change is counted is what saves it
    obtain ⟨hinner, hcounted⟩ := ih ⟨hf.grown, hf.hierarchy_eq, hf.sound.2⟩
    have hmemo : memo.Sound h := hf.hierarchy_eq ▸ hf.sound.1
    refine ⟨⟨hinner.grown, hinner.hierarchy_eq, ?_, hinner.sound⟩, hcounted⟩
    rw [hinner.hierarchy_eq]
    exact hmemo.of_counted hcounted

/-- A history keeps a representation faithful. -/
theorem Tracks.faithful (ht : Tracks r h) : r.Faithful h := by
  induction ht with
  | plain hg => exact ⟨hg, rfl, trivial⟩
  | compiled hg scope => exact ⟨hg, rfl, Compiled.sound_unmade _ scope⟩
  | memoize _ capacity ih => exact ⟨ih.grown, ih.hierarchy_eq, ih.sound.memoize capacity⟩
  | step _ hs ih => exact (hs.faithful ih).1

/-- **Representations agree.** Whatever a representation has gone through, it looks up subsumption
and bounds, with the operands in either order, like the plain hierarchy that has undergone the same
edits, and so answers every query as that hierarchy does. -/
theorem Tracks.answers_like_plain (ht : Tracks r h) :
    (∀ general specific, (r.lookUpSubsumes general specific).value.1 =
      ((Representation.plain h).lookUpSubsumes general specific).value.1) ∧
    (∀ b left right,
      (r.lookUpBounds b left right).value.1 =
        ((Representation.plain h).lookUpBounds b left right).value.1 ∧
      (r.lookUpBounds b right left).value.1 =
        ((Representation.plain h).lookUpBounds b left right).value.1) ∧
    (∀ setting (query : Query) reply last,
      (query.inquire setting r.hierarchy).Yields r reply last →
        reply = ((query.inquire setting h).run (.plain h)).value.1) ∧
    ∀ setting (query : Query), ((query.inquire setting r.hierarchy).run r).value.1 =
      ((query.inquire setting h).run (.plain h)).value.1 := by
  obtain ⟨hg, rfl, hsound⟩ := ht.faithful
  have hm : r.hierarchy.Mirrored := hg.wellFormed.mirrored
  have hquery : ∀ setting (query : Query) reply last,
      (query.inquire setting r.hierarchy).Yields r reply last →
        reply = ((query.inquire setting r.hierarchy).run (.plain r.hierarchy)).value.1 := by
    intro setting query reply last hy
    rw [Inquiry.value_run_plain]
    exact (hy.looksUp hsound hm).eq_answer
  refine ⟨?_, ?_, hquery, ?_⟩
  · intro general specific
    exact (hsound.lookUpSubsumes hm general specific).eq_answer
  · intro b left right
    constructor
    · exact (hsound.lookUpBounds hm b left right).eq_answer
    · rw [(hsound.lookUpBounds hm b right left).eq_answer, Hierarchy.bounds_comm hm]
      rfl
  · intro setting query
    exact hquery setting query _ _ (Inquiry.yields_run _ r)

/-- A memo around rows with a scope, both of which have been used. -/
def usedKnot : Representation :=
  (((compiled { hierarchy := Hierarchy.knot, scope := some (.named "a") }).memoize 1).lookUpBounds
    .leastUpper (.named "a") (.named "c")).value.2

/-- Rows and memo are stale after an edit, and are not used. -/
theorem answers_like_plain_knot :
    Tracks (usedKnot.withHierarchy (usedKnot.hierarchy.serve {} (.remove ["c"])).value.1)
      (Hierarchy.knot.serve {} (.remove ["c"])).value.1 ∧
    ((usedKnot.withHierarchy (usedKnot.hierarchy.serve {} (.remove ["c"])).value.1).lookUpBounds
      .leastUpper (.named "r") (.named "a")).value.1 =
        ((plain (Hierarchy.knot.serve {} (.remove ["c"])).value.1).lookUpBounds
          .leastUpper (.named "r") (.named "a")).value.1 := by
  have hused : Tracks usedKnot Hierarchy.knot :=
    .step (.memoize (.compiled Hierarchy.grown_knot (some (.named "a"))) 1)
      (.ask (x := .bounds .leastUpper (.named "a") (.named "c") .done) (.bounds (.done _ _)))
  have hstep : Step usedKnot Hierarchy.knot
      (usedKnot.withHierarchy (usedKnot.hierarchy.serve {} (.remove ["c"])).value.1)
      (Hierarchy.knot.serve {} (.remove ["c"])).value.1 :=
    .request {} (by simp [Request.sources])
  have hedited := Tracks.step hused hstep
  exact ⟨hedited, (hedited.answers_like_plain.2.1 _ _ _).1⟩

end Representation

end Taxonomy
