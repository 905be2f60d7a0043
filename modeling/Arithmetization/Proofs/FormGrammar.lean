import Arithmetization.Proofs.Reading

/-!
The grammar of forms.

Tokens are read exactly when they are the tokens of forms none of which has a part inside too many
lists. `Form.flatten` lists the tokens of a form with their places, where each part of the form puts
its own place on its first token; it tells forms apart, whatever tokens follow
(`Form.flatten_append_inj`). Together with what reading takes and what it refuses this makes
`Form.read_exact`: reading is the inverse of `Form.flatten`, wherever the tokens end.
-/

set_option autoImplicit false

namespace Arithmetization

/-! ## Depth -/

namespace Sexp

/-- The form `y` is a part of `x` that lies inside `n` lists of it. -/
inductive Inside : Nat → Sexp → Sexp → Prop
  | self (x : Sexp) : Inside 0 x x
  | item {n : Nat} {x y : Sexp} {items : List Sexp} (hx : x ∈ items) (h : Inside n x y) :
      Inside (n + 1) (.list items) y

theorem Inside.le_height {n : Nat} {x y : Sexp} (h : Inside n x y) : n ≤ x.height := by
  induction h with
  | self x => exact Nat.zero_le _
  | item hx _ ih =>
    have hlt := height_lt_heightAll hx
    rw [height]
    omega

/-- Some part lies as deep as the height says. -/
theorem exists_inside_height (x : Sexp) : ∃ y, Inside x.height x y := by
  induction x using Sexp.induction with
  | int n => exact ⟨_, .self _⟩
  | hex bytes => exact ⟨_, .self _⟩
  | sym name => exact ⟨_, .self _⟩
  | list items ih =>
    rw [height]
    by_cases hempty : heightAll items = 0
    · rw [hempty]
      exact ⟨_, .self _⟩
    · -- the deepest item is one list less deep than the list
      obtain ⟨x, hx, hle⟩ := exists_height_of_heightAll (heightAll items - 1)
        (show _ < heightAll items by omega)
      have hlt := height_lt_heightAll hx
      obtain ⟨y, hy⟩ := ih x hx
      have hheight : heightAll items = x.height + 1 := by omega
      rw [hheight]
      exact ⟨y, .item hx hy⟩

theorem inside_le_iff (x : Sexp) (d : Nat) : (∀ n y, Inside n x y → n ≤ d) ↔ x.height ≤ d := by
  constructor
  · intro h
    obtain ⟨y, hy⟩ := x.exists_inside_height
    exact h _ y hy
  · intro h n y hy
    exact hy.le_height.trans h

end Sexp

/-! ## Telling forms apart by their tokens -/

namespace Form

/-- The first token of a form has the place of the form, and it does not close a list. -/
theorem flatten_eq_cons (f : Form) : ∃ k rest, f.flatten = (k, some f.pos) :: rest := by
  cases f with
  | int n pos | hex bytes pos | sym name pos => exact ⟨_, [], rfl⟩
  | list items pos => exact ⟨.opening, _, flatten_list items pos⟩

/-- Forms up to a parenthesis that closes their list are told apart if each of them is. -/
theorem flatMap_flatten_closing {fs gs : List Form} {r s : List (TokenKind × Option Position)}
    (hfs : ∀ f ∈ fs, ∀ g r s, f.flatten ++ r = g.flatten ++ s → f = g ∧ r = s)
    (h : fs.flatMap flatten ++ (.closing, none) :: r
      = gs.flatMap flatten ++ (.closing, none) :: s) : fs = gs ∧ r = s := by
  induction fs generalizing gs with
  | nil =>
    cases gs with
    | nil => exact ⟨rfl, (List.cons.inj h).2⟩
    | cons g gs =>
      obtain ⟨k, rest, hg⟩ := g.flatten_eq_cons
      rw [List.flatMap_cons, hg] at h
      cases h
  | cons f fs ih =>
    rw [List.forall_mem_cons] at hfs
    cases gs with
    | nil =>
      obtain ⟨k, rest, hf⟩ := f.flatten_eq_cons
      rw [List.flatMap_cons, hf] at h
      cases h
    | cons g gs =>
      rw [List.flatMap_cons, List.flatMap_cons, List.append_assoc, List.append_assoc] at h
      obtain ⟨rfl, hrest⟩ := hfs.1 g _ _ h
      obtain ⟨rfl, hrs⟩ := ih hfs.2 hrest
      exact ⟨rfl, hrs⟩

/-- **The tokens of a form tell the form**, and where it ends. -/
theorem flatten_append_inj (f g : Form) {r s : List (TokenKind × Option Position)}
    (h : f.flatten ++ r = g.flatten ++ s) : f = g ∧ r = s := by
  induction f using Form.induction generalizing g r s with
  | int n pos | hex bytes pos | sym name pos =>
    cases g <;> simp_all [flatten]
  | list items pos ih =>
    cases g with
    | list items' pos' =>
      rw [flatten_list, flatten_list, List.cons_append, List.cons_append, List.append_assoc,
        List.append_assoc] at h
      obtain ⟨hpos, hitems⟩ := List.cons.inj h
      obtain ⟨rfl, rfl⟩ := flatMap_flatten_closing (fun f hf g _ _ => ih f hf g) hitems
      obtain rfl := Option.some.inj (Prod.mk.inj hpos).2
      exact ⟨rfl, rfl⟩
    | _ =>
      rw [flatten_list] at h
      cases h

theorem flatMap_flatten_inj {fs gs : List Form} (h : fs.flatMap flatten = gs.flatMap flatten) :
    fs = gs := by
  -- a closing parenthesis after both makes them the items of a list
  have hclosed := congrArg (· ++ [(TokenKind.closing, (none : Option Position))]) h
  exact (flatMap_flatten_closing (fun f _ g _ _ => flatten_append_inj f g) hclosed).1

/-! ## Reading -/

theorem foldl_add_done (fs : List Form) (depth : Nat) (done : List Form) :
    fs.foldl Reader.add ⟨depth, [], done⟩ = ⟨depth, [], fs.reverse ++ done⟩ := by
  induction fs generalizing done with
  | nil => rfl
  | cons f fs ih =>
    rw [List.foldl_cons, Reader.add, ih, List.reverse_cons, List.append_assoc]
    rfl

/-- **The tokens of forms are read as these forms** if nothing in them lies too deep. -/
theorem read_flatMap_kinds {xs : List Sexp} {tokens : List Token}
    (h : (upToEof tokens).map Token.kind = xs.flatMap Sexp.kinds)
    (hheight : ∀ x ∈ xs, x.height ≤ maxDepth) : ∃ fs, fs.map bare = xs ∧ read tokens = .ok fs := by
  obtain ⟨pos, hrun⟩ := Reader.empty.run_eq default tokens
  obtain ⟨fs, hfs, hsteps⟩ := Reader.takes_all (fun x _ => Reader.takes x) (r := .empty) h
    fun x hx => (Nat.zero_add _).trans_le (hheight x hx)
  refine ⟨fs, hfs, ?_⟩
  rw [read, hrun]
  show (Reader.empty.steps (upToEof tokens) >>= fun r => r.finish pos) = _
  rw [hsteps, Reader.empty, foldl_add_done, List.append_nil]
  exact congrArg Except.ok (List.reverse_reverse fs)

theorem exists_read_of_kinds {xs : List Sexp} {tokens : List Token}
    (h : (upToEof tokens).map Token.kind = xs.flatMap Sexp.kinds)
    (hheight : ∀ x ∈ xs, x.height ≤ maxDepth) : ∃ fs, read tokens = .ok fs := by
  obtain ⟨fs, -, hread⟩ := read_flatMap_kinds h hheight
  exact ⟨fs, hread⟩

/-- **Nothing that is read lies too deep.** -/
theorem height_of_read {tokens : List Token} {fs : List Form} (h : read tokens = .ok fs) {f : Form}
    (hf : f ∈ fs) : f.bare.height ≤ maxDepth := by
  by_contra hdeep
  obtain ⟨pos, hrun⟩ := Reader.empty.run_eq default tokens
  have hkinds : (upToEof tokens).map Token.kind = (fs.map bare).flatMap Sexp.kinds := by
    rw [← kinds_of_read h, List.flatMap_map]
  have hrefused := Reader.refuses_items (fun x _ => Reader.refuses x) (r := .empty) hkinds
    ⟨f.bare, List.mem_map_of_mem hf, by
      rw [Reader.empty, Nat.zero_add]
      exact Nat.lt_of_not_le hdeep⟩
  rw [read, hrun] at h
  change (Reader.empty.steps (upToEof tokens) >>= fun r => r.finish pos) = _ at h
  rw [hrefused] at h
  cases h

/-- **Reading accepts exactly balanced token streams of bounded depth.** The forms that are read are
those whose tokens stand before the first `eof`, with no part inside more than 1024 lists; no other
forms have these tokens; and whether there are any depends on the kinds of the tokens only. -/
theorem read_exact (tokens : List Token) :
    (∀ fs, read tokens = .ok fs ↔ fs.flatMap flatten = (upToEof tokens).map Token.kept
      ∧ ∀ f ∈ fs, ∀ n y, Sexp.Inside n f.bare y → n ≤ 1024)
    ∧ (∀ fs gs : List Form, fs.flatMap flatten = (upToEof tokens).map Token.kept →
        gs.flatMap flatten = (upToEof tokens).map Token.kept → fs = gs)
    ∧ ((∃ fs, read tokens = .ok fs) ↔
        ∃ xs : List Sexp, xs.flatMap Sexp.kinds = (upToEof tokens).map Token.kind
          ∧ ∀ x ∈ xs, ∀ n y, Sexp.Inside n x y → n ≤ 1024) := by
  have hsound : ∀ fs, read tokens = .ok fs → fs.flatMap flatten = (upToEof tokens).map Token.kept
      ∧ ∀ f ∈ fs, ∀ n y, Sexp.Inside n f.bare y → n ≤ 1024 := by
    intro fs h
    exact ⟨flatten_of_read h, fun f hf => (f.bare.inside_le_iff 1024).2 (height_of_read h hf)⟩
  have hcomplete : ∀ xs : List Sexp, xs.flatMap Sexp.kinds = (upToEof tokens).map Token.kind →
      (∀ x ∈ xs, ∀ n y, Sexp.Inside n x y → n ≤ 1024) → ∃ fs, read tokens = .ok fs := by
    intro xs hxs hdepth
    exact exists_read_of_kinds hxs.symm fun x hx => (x.inside_le_iff 1024).1 (hdepth x hx)
  refine ⟨fun fs => ⟨hsound fs, ?_⟩, fun fs gs hfs hgs => flatMap_flatten_inj (hfs.trans hgs.symm),
    ?_, ?_⟩
  · rintro ⟨hfs, hdepth⟩
    obtain ⟨gs, hgs⟩ := hcomplete (fs.map bare) (by rw [List.flatMap_map, flatMap_kinds hfs])
      (List.forall_mem_map.2 hdepth)
    rw [hgs, flatMap_flatten_inj ((hsound gs hgs).1.trans hfs.symm)]
  · rintro ⟨fs, hfs⟩
    refine ⟨fs.map bare, ?_, List.forall_mem_map.2 (hsound fs hfs).2⟩
    rw [List.flatMap_map, kinds_of_read hfs]
  · rintro ⟨xs, hxs, hdepth⟩
    exact hcomplete xs hxs hdepth

/-- What stands after an `eof` in the middle of a stream is not looked at. -/
theorem read_exact_before_eof :
    read [⟨.opening, ⟨1, 1⟩⟩, ⟨.opening, ⟨1, 2⟩⟩, ⟨.closing, ⟨1, 3⟩⟩, ⟨.int 7, ⟨2, 1⟩⟩,
        ⟨.closing, ⟨2, 2⟩⟩, ⟨.eof, ⟨2, 3⟩⟩, ⟨.closing, ⟨2, 3⟩⟩]
      = .ok [.list [.list [] ⟨1, 2⟩, .int 7 ⟨2, 1⟩] ⟨1, 1⟩] := by
  refine ((read_exact _).1 _).2 ⟨by decide, ?_⟩
  intro f hf
  obtain rfl := List.mem_singleton.1 hf
  exact (Sexp.inside_le_iff _ 1024).2 (by decide)

end Form

end Arithmetization
