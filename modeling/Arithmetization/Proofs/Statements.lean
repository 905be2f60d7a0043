import Arithmetization.Proofs.Clauses

/-!
Which forms denote which bodies.

A body is read statement by statement. What the statements so far have done is a `Progress`: the
declared locals, the shapes of those that may be read, and the stores. `Grammar.Statements` says how
one more statement changes it, and `Grammar.DenotesBlock` closes the statements with a result.

As for expressions, the grammar accepts exactly the bodies that denote a block, and the trees of the
accepted body are that block (`Grammar.body_denotes`, `Grammar.DenotesBlock.accepted`). What is said
about a block is therefore said without the arena in which a body keeps it.
-/

set_option autoImplicit false

namespace Arithmetization

/-- What statements have done so far. -/
structure Progress where
  locals : List Shape
  /-- The shapes of the locals that may be read. -/
  shapes : List (Option Shape)
  stores : List Assign

namespace Builder

variable {b b' : Builder}

/-- What the statements of a body in the making have done. -/
def progress (b : Builder) : Progress :=
  ⟨b.locals.toList, b.shapes, b.stores.toList.map (Body.assign b.arena)⟩

/-- Every local is stored or not, and what was stored is in the arena. -/
structure Sound (b : Builder) : Prop where
  size_eq : b.stored.size = b.locals.size
  value_lt : ∀ s ∈ b.stores.toList, s.value < b.arena.size

theorem sound_empty : empty.Sound :=
  ⟨rfl, fun _ h => (by cases h)⟩

/-- Appending nodes does not change what was stored. -/
theorem Sound.map_assign (hb : b.Sound) {a : Arena} (h : b.arena.Grows a) :
    b.stores.toList.map (Body.assign a) = b.progress.stores :=
  List.map_congr_left fun s hs => by
    rw [Body.assign, Body.assign, h.expr_eq _ (hb.value_lt s hs)]

theorem shapes_declare (h : b.stored.size = b.locals.size) (s : Shape) :
    (b.declare s).1.shapes = b.shapes ++ [none] := by
  simp only [shapes, declare, Array.toList_push]
  rw [List.zipWith_append (by simpa using h.symm)]
  rfl

theorem shapes_assumeStored (h : b.stored.size = b.locals.size) {i : Nat} {s : Shape}
    (hs : b.locals[i]? = some s) : (b.assumeStored i).shapes = b.shapes.set i (some s) := by
  refine List.ext_getElem? fun j => ?_
  have hi : i < b.locals.size := (Array.getElem?_eq_some_iff.1 hs).1
  simp only [shapes, assumeStored, List.getElem?_zipWith, Array.getElem?_toList,
    List.getElem?_set, Array.getElem?_setIfInBounds, List.length_zipWith, Array.length_toList, h,
    Nat.min_self]
  by_cases hij : i = j
  · subst hij
    simp only [hi, if_true, hs]
  · simp only [if_neg hij]

/-- A declaration adds a local that may not be read yet. -/
theorem Sound.declare (h : b.Sound) (s : Shape) :
    (b.declare s).1.Sound ∧ (b.declare s).1.progress
      = ⟨b.progress.locals ++ [s], b.progress.shapes ++ [none], b.progress.stores⟩ := by
  have hlocals : (b.declare s).1.locals.toList = b.locals.toList ++ [s] := Array.toList_push ..
  refine ⟨⟨?_, h.value_lt⟩, ?_⟩
  · show (b.stored.push false).size = (b.locals.push s).size
    rw [Array.size_push, Array.size_push, h.size_eq]
  · rw [progress, shapes_declare h.size_eq, hlocals]
    rfl

/-- A store into a declared local of the shape of the value. -/
theorem store_eq_ok {target value : Nat} :
    b.store target value = .ok b' ↔
      b.locals[target]? = some (b.arena.shape value)
        ∧ b' = { b.assumeStored target with stores := b.stores.push ⟨target, value⟩ } := by
  unfold store
  cases hlocal : b.locals[target]? with
  | none => exact ⟨fun h => (by cases h), fun h => (by cases h.1)⟩
  | some declared =>
    dsimp only
    by_cases hshape : b.arena.shape value = declared
    · rw [if_pos hshape, hshape]
      exact ⟨fun h => ⟨rfl, (Except.ok.inj h).symm⟩, fun h => congrArg _ h.2.symm⟩
    · rw [if_neg hshape]
      exact ⟨fun h => (by cases h), fun h => absurd (Option.some.inj h.1).symm hshape⟩

/-- A store adds its assignment and makes its local readable. -/
theorem Sound.store (h : b.Sound) {a : Arena} {e : Expr} {id target : Nat}
    (ha : b.arena.Stores a [e] [id])
    (hstore : Builder.store { b with arena := a } target id = .ok b') :
    b.progress.locals[target]? = some e.shape ∧ b'.Sound
      ∧ b'.progress = ⟨b.progress.locals, b.progress.shapes.set target (some e.shape),
          b.progress.stores ++ [⟨target, e⟩]⟩ := by
  obtain ⟨hlocal, rfl⟩ := store_eq_ok.1 hstore
  have htree : a.expr id = e := by simpa using ha.trees
  have hshape : a.shape id = e.shape := by simpa using ha.shapes
  dsimp only at hlocal
  rw [hshape] at hlocal
  refine ⟨(Array.getElem?_toList ..).trans hlocal, ⟨?_, fun s hs => ?_⟩, ?_⟩
  · exact (Array.size_setIfInBounds ..).trans h.size_eq
  · rw [Array.toList_push, List.mem_append, List.mem_singleton] at hs
    rcases hs with hs | rfl
    · exact Nat.lt_of_lt_of_le (h.value_lt s hs) ha.grows.size_le
    · exact ha.lt id (List.mem_singleton.2 rfl)
  · show Progress.mk b.locals.toList (b.assumeStored target).shapes
      ((b.stores.push ⟨target, id⟩).toList.map (Body.assign a)) = _
    rw [shapes_assumeStored h.size_eq hlocal, Array.toList_push, List.map_append,
      h.map_assign ha.grows]
    show Progress.mk _ _ (_ ++ [⟨target, a.expr id⟩]) = _
    rw [htree]
    rfl

end Builder

namespace Grammar

open Form

/-- The forms of statements and what they have done. -/
inductive Statements (cx : Context) : List Sexp → Progress → Prop
  | nil : Statements cx [] ⟨[], [], []⟩
  | declare {xs : List Sexp} {p : Progress} {s : Shape} (h : Statements cx xs p)
      (hs : s.Writable) :
      Statements cx (xs ++ [.list (.sym "local" :: s.sexps)])
        ⟨p.locals ++ [s], p.shapes ++ [none], p.stores⟩
  | store {xs : List Sexp} {p : Progress} {x : Sexp} {e : Expr} {target : Nat}
      (h : Statements cx xs p) (htarget : target < indexBound) (he : Denotes cx p.shapes x e)
      (hlocal : p.locals[target]? = some e.shape) :
      Statements cx (xs ++ [.list [.sym "store.local", .int target, x]])
        ⟨p.locals, p.shapes.set target (some e.shape), p.stores ++ [⟨target, e⟩]⟩

/-- The forms of a body and its block: statements and a result. -/
inductive DenotesBlock (cx : Context) : List Sexp → Block → Prop
  | result {xs : List Sexp} {p : Progress} {x : Sexp} {e : Expr} (h : Statements cx xs p)
      (he : Denotes cx p.shapes x e) : DenotesBlock cx (xs ++ [x]) ⟨p.locals, p.stores, e⟩

variable {cx : Context}

/-! ## What is accepted is denoted -/

/-- One statement. -/
theorem Does.denotes {b b' : Builder} {x : Sexp} (h : Does cx b x b') (hb : b.Sound) :
    b'.Sound ∧ ∀ xs, Statements cx xs b.progress → Statements cx (xs ++ [x]) b'.progress := by
  cases h with
  | @declare s hs =>
    obtain ⟨hsound, hprogress⟩ := hb.declare s
    rw [hprogress]
    exact ⟨hsound, fun xs hxs => hxs.declare hs⟩
  | store htarget hx hstore =>
    obtain ⟨hlocal, hsound, hprogress⟩ := hb.store hx.stores hstore
    rw [hprogress]
    exact ⟨hsound, fun xs hxs => hxs.store htarget hx.denotes hlocal⟩

/-- Statements one after the other. -/
theorem Runs.denotes {b b' : Builder} {ys : List Sexp} (h : Runs (Does cx) b ys b')
    (hb : b.Sound) :
    b'.Sound ∧ ∀ xs, Statements cx xs b.progress → Statements cx (xs ++ ys) b'.progress := by
  induction h with
  | nil _ => exact ⟨hb, fun xs hxs => (List.append_nil xs).symm ▸ hxs⟩
  | cons h _ ih =>
    obtain ⟨hsound, hfirst⟩ := h.denotes hb
    obtain ⟨hsound', hrest⟩ := ih hsound
    refine ⟨hsound', fun xs hxs => ?_⟩
    rw [List.append_cons]
    exact hrest _ (hfirst xs hxs)

/-- **An accepted body denotes the block of its trees.** -/
theorem body_denotes {pos : Position} {items : List Form} {b : Body}
    (h : body cx pos items = .ok b) : DenotesBlock cx (items.map bare) b.block := by
  obtain ⟨xs, x, b₁, a, id, hitems, hrun, ha, rfl⟩ := body_eq_ok.1 h
  obtain ⟨hsound, hstatements⟩ := hrun.denotes Builder.sound_empty
  have hblock : (Builder.finish { b₁ with arena := a } id).block
      = ⟨b₁.progress.locals, b₁.progress.stores, a.expr id⟩ := by
    rw [← hsound.map_assign ha.stores.grows]
    rfl
  rw [hitems, hblock]
  exact .result (hstatements [] .nil) ha.denotes

/-! ## What is denoted is accepted -/

theorem Statements.accepted {xs : List Sexp} {p : Progress} (h : Statements cx xs p) :
    ∃ b, Runs (Does cx) .empty xs b ∧ b.Sound ∧ b.progress = p := by
  induction h with
  | nil => exact ⟨.empty, .nil _, Builder.sound_empty, rfl⟩
  | @declare xs p s _ hs ih =>
    obtain ⟨b, hrun, hb, rfl⟩ := ih
    obtain ⟨hsound, hprogress⟩ := hb.declare s
    exact ⟨_, hrun.snoc (.declare hs), hsound, hprogress⟩
  | @store xs p x e target _ htarget he hlocal ih =>
    obtain ⟨b, hrun, hb, rfl⟩ := ih
    obtain ⟨a, id, ha, hstores⟩ := he.appends b.arena
    have hshape : a.shape id = e.shape := by simpa using hstores.shapes
    have hdeclared : b.locals[target]? = some (a.shape id) := by
      rw [hshape, ← hlocal]
      exact (Array.getElem?_toList ..).symm
    have hstore := Builder.store_eq_ok.2
      (show (Builder.mk b.locals b.stored b.stores a).locals[target]? = _ ∧ _ from ⟨hdeclared, rfl⟩)
    obtain ⟨-, hsound, hprogress⟩ := hb.store hstores hstore
    exact ⟨_, hrun.snoc (.store htarget ha hstore), hsound, hprogress⟩

/-- **A body that denotes a block is accepted**, and its trees are that block. -/
theorem DenotesBlock.accepted {xs : List Sexp} {blk : Block} (h : DenotesBlock cx xs blk)
    (pos : Position) {items : List Form} (hitems : items.map bare = xs) :
    ∃ b, body cx pos items = .ok b ∧ b.block = blk := by
  cases h with
  | @result xs p x e hxs he =>
    obtain ⟨b, hrun, hb, rfl⟩ := hxs.accepted
    obtain ⟨a, id, ha, hstores⟩ := he.appends b.arena
    refine ⟨Builder.finish { b with arena := a } id, ?_, ?_⟩
    · exact body_eq_ok.2 ⟨xs, x, b, a, id, hitems, hrun, ha, rfl⟩
    · have htree : a.expr id = e := by simpa using hstores.trees
      show Block.mk b.locals.toList (b.stores.toList.map (Body.assign a)) (a.expr id) = _
      rw [hb.map_assign hstores.grows, htree]
      rfl

end Grammar

end Arithmetization
