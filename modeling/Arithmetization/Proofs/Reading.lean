import Arithmetization.Form
import Arithmetization.Proofs.Outcomes
import Arithmetization.Proofs.Spelling
import Mathlib.Data.List.TakeWhile

/-!
Forms and their tokens.

What a form means does not depend on where it stands in its text, so grammar is stated about forms
without places: `Sexp`. The tokens of such a form are its parts in parentheses. Reading and listing
the tokens undo each other: what is read from tokens has these tokens (`Form.flatten_of_read`), and
the tokens of a form are read as this form if nothing lies inside too many lists
(`Form.read_kinds`), and refused otherwise (`Form.read_kinds_error`).
-/

set_option autoImplicit false

namespace Arithmetization

/-- A form without the places of its parts. -/
inductive Sexp where
  | int (value : Nat)
  | hex (bytes : List UInt8)
  | sym (name : String)
  | list (items : List Sexp)
deriving Repr

namespace Sexp

/-- To prove something of every form, prove it of atoms and of a list whose items have it. -/
@[elab_as_elim]
theorem induction {P : Sexp → Prop} (int : ∀ n, P (.int n)) (hex : ∀ bytes, P (.hex bytes))
    (sym : ∀ name, P (.sym name)) (list : ∀ items, (∀ x ∈ items, P x) → P (.list items))
    (x : Sexp) : P x := by
  refine @Sexp.rec P (fun xs => ∀ x ∈ xs, P x) int hex sym list ?_ ?_ x
  · intro x hx
    cases hx
  · intro x xs hx hxs y hy
    rcases List.mem_cons.1 hy with rfl | hy
    exacts [hx, hxs y hy]

mutual

/-- The tokens of a form. -/
def kinds : Sexp → List TokenKind
  | .int n => [.int n]
  | .hex bytes => [.hex bytes]
  | .sym name => [.sym name]
  | .list items => .opening :: (kindsAll items ++ [.closing])

/-- The tokens of several forms. -/
def kindsAll : List Sexp → List TokenKind
  | [] => []
  | x :: xs => kinds x ++ kindsAll xs

end

theorem kindsAll_eq (xs : List Sexp) : kindsAll xs = xs.flatMap kinds := by
  induction xs with
  | nil => rfl
  | cons x xs ih => rw [kindsAll, ih, List.flatMap_cons]

theorem kinds_list (items : List Sexp) :
    (Sexp.list items).kinds = .opening :: (items.flatMap kinds ++ [.closing]) := by
  rw [kinds, kindsAll_eq]

mutual

/-- How many lists lie around the innermost part of a form, this part itself not counted. -/
def height : Sexp → Nat
  | .list items => heightAll items
  | _ => 0

/-- The same for the items of one list, which lie inside that list. -/
def heightAll : List Sexp → Nat
  | [] => 0
  | x :: xs => max (height x + 1) (heightAll xs)

end

theorem height_lt_heightAll {x : Sexp} {xs : List Sexp} (hx : x ∈ xs) :
    x.height < heightAll xs := by
  induction xs with
  | nil => cases hx
  | cons y ys ih =>
    rw [heightAll]
    rcases List.mem_cons.1 hx with rfl | hx
    · omega
    · have h := ih hx
      omega

theorem exists_height_of_heightAll (n : Nat) {xs : List Sexp} (h : n < heightAll xs) :
    ∃ x ∈ xs, n ≤ x.height := by
  induction xs with
  | nil => cases h
  | cons x xs ih =>
    rw [heightAll] at h
    by_cases hx : n ≤ x.height
    · exact ⟨x, List.mem_cons_self .., hx⟩
    · obtain ⟨y, hy, hn⟩ := ih (by omega)
      exact ⟨y, List.mem_cons_of_mem _ hy, hn⟩

theorem eof_notMem_kinds (x : Sexp) : TokenKind.eof ∉ x.kinds := by
  induction x using Sexp.induction with
  | int n => simp [kinds]
  | hex bytes => simp [kinds]
  | sym name => simp [kinds]
  | list items ih =>
    rw [kinds_list]
    simpa using ih

end Sexp

/-- What forms keep of a token: its kind and, unless it closes a list, its place. -/
def Token.kept (t : Token) : TokenKind × Option Position :=
  (t.kind, if t.kind = .closing then none else some t.pos)

namespace Form

mutual

/-- A form without its places. -/
def bare : Form → Sexp
  | .int n _ => .int n
  | .hex bytes _ => .hex bytes
  | .sym name _ => .sym name
  | .list items _ => .list (bareAll items)

def bareAll : List Form → List Sexp
  | [] => []
  | f :: fs => bare f :: bareAll fs

end

theorem bareAll_eq (fs : List Form) : bareAll fs = fs.map bare := by
  induction fs with
  | nil => rfl
  | cons f fs ih => rw [bareAll, ih, List.map_cons]

theorem bare_list (items : List Form) (pos : Position) :
    (Form.list items pos).bare = .list (items.map bare) := by
  rw [bare, bareAll_eq]

theorem bare_eq_int {f : Form} {n : Nat} : f.bare = .int n ↔ ∃ pos, f = .int n pos := by
  constructor
  · intro h
    cases f with
    | int m pos => exact ⟨pos, by rw [Sexp.int.inj h]⟩
    | _ => cases h
  · rintro ⟨pos, rfl⟩
    rfl

theorem bare_eq_hex {f : Form} {bytes : List UInt8} :
    f.bare = .hex bytes ↔ ∃ pos, f = .hex bytes pos := by
  constructor
  · intro h
    cases f with
    | hex bs pos => exact ⟨pos, by rw [Sexp.hex.inj h]⟩
    | _ => cases h
  · rintro ⟨pos, rfl⟩
    rfl

theorem bare_eq_sym {f : Form} {name : String} : f.bare = .sym name ↔ ∃ pos, f = .sym name pos := by
  constructor
  · intro h
    cases f with
    | sym s pos => exact ⟨pos, by rw [Sexp.sym.inj h]⟩
    | _ => cases h
  · rintro ⟨pos, rfl⟩
    rfl

theorem bare_eq_list {f : Form} {xs : List Sexp} :
    f.bare = .list xs ↔ ∃ items pos, f = .list items pos ∧ items.map bare = xs := by
  constructor
  · intro h
    cases f with
    | list items pos =>
      rw [bare_list] at h
      exact ⟨items, pos, rfl, Sexp.list.inj h⟩
    | _ => cases h
  · rintro ⟨items, pos, rfl, rfl⟩
    exact bare_list items pos

/-- A list that starts with a symbol. -/
theorem bare_eq_clause {f : Form} {name : String} {xs : List Sexp} :
    f.bare = .list (.sym name :: xs) ↔
      ∃ p args pos, f = .list (.sym name p :: args) pos ∧ args.map bare = xs := by
  rw [bare_eq_list]
  constructor
  · rintro ⟨items, pos, rfl, hitems⟩
    obtain ⟨g, args, rfl, hg, hargs⟩ := List.map_eq_cons_iff.1 hitems
    obtain ⟨p, rfl⟩ := bare_eq_sym.1 hg
    exact ⟨p, args, pos, rfl, hargs⟩
  · rintro ⟨p, args, pos, rfl, hargs⟩
    exact ⟨_, pos, rfl, by rw [List.map_cons, hargs, bare]⟩

/-- To prove something of every form with places, prove it of atoms and of a list whose items have
it. -/
@[elab_as_elim]
theorem induction {P : Form → Prop} (int : ∀ n pos, P (.int n pos))
    (hex : ∀ bytes pos, P (.hex bytes pos)) (sym : ∀ name pos, P (.sym name pos))
    (list : ∀ items pos, (∀ f ∈ items, P f) → P (.list items pos)) (f : Form) : P f := by
  refine @Form.rec P (fun fs => ∀ f ∈ fs, P f) int hex sym list ?_ ?_ f
  · intro f hf
    cases hf
  · intro f fs hf hfs g hg
    rcases List.mem_cons.1 hg with rfl | hg
    exacts [hf, hfs g hg]

mutual

/-- The tokens of a form, each with the place that the form keeps of it: that of a closing
parenthesis is not kept. -/
def flatten : Form → List (TokenKind × Option Position)
  | .int n pos => [(.int n, some pos)]
  | .hex bytes pos => [(.hex bytes, some pos)]
  | .sym name pos => [(.sym name, some pos)]
  | .list items pos => (.opening, some pos) :: (flattenAll items ++ [(.closing, none)])

/-- The tokens of several forms. -/
def flattenAll : List Form → List (TokenKind × Option Position)
  | [] => []
  | f :: fs => flatten f ++ flattenAll fs

end

theorem flattenAll_eq (fs : List Form) : flattenAll fs = fs.flatMap flatten := by
  induction fs with
  | nil => rfl
  | cons f fs ih => rw [flattenAll, ih, List.flatMap_cons]

theorem flatten_list (items : List Form) (pos : Position) :
    (Form.list items pos).flatten
      = (.opening, some pos) :: (items.flatMap flatten ++ [(.closing, none)]) := by
  rw [flatten, flattenAll_eq]

theorem map_fst_flatten (f : Form) : f.flatten.map Prod.fst = f.bare.kinds := by
  induction f using Form.induction with
  | int n pos | hex bytes pos | sym name pos => rfl
  | list items pos ih =>
    rw [flatten_list, bare_list, Sexp.kinds_list, List.flatMap_map, List.map_cons, List.map_append,
      List.map_flatMap, List.flatMap_congr ih]
    rfl

/-! ## Reading step by step -/

namespace Reader

/-- Take several tokens, none of which is `eof`. -/
def steps (r : Reader) (ts : List Token) : Except Fault Reader :=
  ts.foldlM step r

theorem steps_cons (r : Reader) (t : Token) (ts : List Token) :
    r.steps (t :: ts) = r.step t >>= fun r' => r'.steps ts := by
  rw [steps, List.foldlM_cons]
  rfl

theorem steps_append (r : Reader) (ts us : List Token) :
    r.steps (ts ++ us) = r.steps ts >>= fun r' => r'.steps us := by
  rw [steps, List.foldlM_append]
  rfl

/-- Reading takes the tokens before the first `eof` and then finishes. -/
theorem run_eq (r : Reader) (last : Position) (ts : List Token) :
    ∃ pos, r.run last ts
      = r.steps (ts.takeWhile fun t => t.kind ≠ .eof) >>= fun r' => r'.finish pos := by
  induction ts generalizing r last with
  | nil => exact ⟨last, rfl⟩
  | cons t ts ih =>
    rw [run]
    by_cases ht : t.kind = .eof
    · refine ⟨t.pos, ?_⟩
      rw [if_pos ht, List.takeWhile_cons_of_neg (by simpa using ht)]
      rfl
    · rw [if_neg ht, List.takeWhile_cons_of_pos (by simpa using ht), steps_cons]
      cases hstep : r.step t with
      | error f => exact ⟨last, rfl⟩
      | ok r' => exact ih r' t.pos

theorem depth_add (r : Reader) (f : Form) : (r.add f).depth = r.depth := by
  unfold add
  split <;> rfl

theorem enter_eq_ok {r : Reader} (h : r.depth ≤ maxDepth) : r.enter = .ok r :=
  if_neg (Nat.not_lt.2 h)

theorem enter_eq_error {r : Reader} (h : maxDepth < r.depth) :
    r.enter = .error (.limit .parseDepth) :=
  if_pos h

theorem step_opening {r : Reader} {t : Token} (ht : t.kind = .opening) (h : r.depth ≤ maxDepth) :
    r.step t = .ok ⟨r.depth + 1, ⟨t.pos, []⟩ :: r.stack, r.done⟩ := by
  rw [step, ht]
  dsimp only
  rw [enter_eq_ok h]
  rfl

/-! ### The tokens that were taken -/

/-- The tokens that a reader has taken: those of the finished forms, then of each open list, the
outermost first. -/
def flatten (r : Reader) : List (TokenKind × Option Position) :=
  r.done.reverse.flatMap Form.flatten
    ++ r.stack.reverse.flatMap fun p =>
      (.opening, some p.pos) :: p.items.reverse.flatMap Form.flatten

theorem flatten_add (r : Reader) (f : Form) : (r.add f).flatten = r.flatten ++ f.flatten := by
  obtain ⟨depth, stack, done⟩ := r
  cases stack with
  | nil => simp [add, flatten]
  | cons p below => simp [add, flatten]

theorem flatten_step {r r' : Reader} {t : Token} (ht : t.kind ≠ .eof) (h : r.step t = .ok r') :
    r'.flatten = r.flatten ++ [t.kept] := by
  have hatom : ∀ {g : Reader → Reader}, (do return g (← r.enter)) = Except.ok r' → r' = g r := by
    intro g hg
    obtain ⟨r₁, henter, hr'⟩ := bind_eq_ok.1 hg
    unfold enter at henter
    split at henter
    · cases henter
    · rw [← pure_eq_ok.1 hr', Except.ok.inj henter]
  unfold step at h
  split at h
  · next hkind =>
    obtain rfl := hatom h
    simp [flatten, Token.kept, hkind]
  · next hkind =>
    split at h
    · cases h
    next p below hstack =>
    -- the closed list becomes a form, whose tokens are those of the open list and one more
    obtain rfl := Except.ok.inj h
    rw [flatten_add, Token.kept, hkind, flatten_list, flatten, flatten, hstack]
    simp
  · next hkind => rw [hatom h, flatten_add, Token.kept, hkind, Form.flatten, if_neg (by simp)]
  · next hkind => rw [hatom h, flatten_add, Token.kept, hkind, Form.flatten, if_neg (by simp)]
  · next hkind => rw [hatom h, flatten_add, Token.kept, hkind, Form.flatten, if_neg (by simp)]
  · next hkind => exact absurd hkind ht

theorem flatten_steps {r r' : Reader} {ts : List Token} (hts : ∀ t ∈ ts, t.kind ≠ .eof)
    (h : r.steps ts = .ok r') : r'.flatten = r.flatten ++ ts.map Token.kept := by
  induction ts generalizing r with
  | nil =>
    obtain rfl := pure_eq_ok.1 h
    rw [List.map_nil, List.append_nil]
  | cons t ts ih =>
    rw [List.forall_mem_cons] at hts
    rw [steps_cons] at h
    obtain ⟨r₁, hstep, h⟩ := bind_eq_ok.1 h
    rw [ih hts.2 h, flatten_step hts.1 hstep, List.map_cons, List.append_assoc,
      List.singleton_append]

/-! ### Taking the tokens of a form -/

/-- Taking the tokens of `x` adds a form that is `x` without its places. -/
def Takes (x : Sexp) : Prop :=
  ∀ (r : Reader) (ts : List Token), ts.map Token.kind = x.kinds → r.depth + x.height ≤ maxDepth →
    ∃ f, f.bare = x ∧ r.steps ts = .ok (r.add f)

theorem takes_all {xs : List Sexp} (hxs : ∀ x ∈ xs, Takes x) {r : Reader} {ts : List Token}
    (hts : ts.map Token.kind = xs.flatMap Sexp.kinds)
    (hdepth : ∀ x ∈ xs, r.depth + x.height ≤ maxDepth) :
    ∃ fs : List Form, fs.map bare = xs ∧ r.steps ts = .ok (fs.foldl add r) := by
  induction xs generalizing r ts with
  | nil =>
    rw [List.flatMap_nil, List.map_eq_nil_iff] at hts
    subst hts
    exact ⟨[], rfl, rfl⟩
  | cons x xs ih =>
    rw [List.forall_mem_cons] at hxs hdepth
    rw [List.flatMap_cons] at hts
    obtain ⟨us, vs, rfl, hus, hvs⟩ := List.map_eq_append_iff.1 hts
    obtain ⟨f, hf, hfirst⟩ := hxs.1 r us hus hdepth.1
    obtain ⟨fs, hfs, hrest⟩ := ih hxs.2 (r := r.add f) hvs (by
      rw [depth_add]
      exact hdepth.2)
    refine ⟨f :: fs, by rw [List.map_cons, hf, hfs], ?_⟩
    rw [steps_append, hfirst, List.foldl_cons]
    exact hrest

theorem foldl_add_pending (fs : List Form) (depth : Nat) (p : Pending) (below : List Pending)
    (done : List Form) :
    fs.foldl add ⟨depth, p :: below, done⟩
      = ⟨depth, ⟨p.pos, fs.reverse ++ p.items⟩ :: below, done⟩ := by
  induction fs generalizing p with
  | nil => rfl
  | cons f fs ih =>
    rw [List.foldl_cons, add, ih, List.reverse_cons, List.append_assoc]
    rfl

/-- One token that is a form by itself. -/
theorem takes_atom {x : Sexp} {k : TokenKind} (hk : x.kinds = [k])
    (h : ∀ (r : Reader) (t : Token), t.kind = k → r.depth ≤ maxDepth →
      ∃ f, f.bare = x ∧ r.step t = .ok (r.add f)) : Takes x := by
  intro r ts hts hdepth
  rw [hk] at hts
  obtain ⟨t, ts, rfl, ht, hnil⟩ := List.map_eq_cons_iff.1 hts
  obtain rfl := List.map_eq_nil_iff.1 hnil
  obtain ⟨f, hf, hstep⟩ := h r t ht (by omega)
  refine ⟨f, hf, ?_⟩
  rw [steps_cons, hstep]
  rfl

theorem takes (x : Sexp) : Takes x := by
  induction x using Sexp.induction with
  | int n =>
    refine takes_atom rfl fun r t ht hdepth => ⟨.int n t.pos, rfl, ?_⟩
    rw [step, ht]
    dsimp only
    rw [enter_eq_ok hdepth]
    rfl
  | hex bytes =>
    refine takes_atom rfl fun r t ht hdepth => ⟨.hex bytes t.pos, rfl, ?_⟩
    rw [step, ht]
    dsimp only
    rw [enter_eq_ok hdepth]
    rfl
  | sym name =>
    refine takes_atom rfl fun r t ht hdepth => ⟨.sym name t.pos, rfl, ?_⟩
    rw [step, ht]
    dsimp only
    rw [enter_eq_ok hdepth]
    rfl
  | list items ih =>
    intro r ts hts hdepth
    rw [Sexp.height] at hdepth
    rw [Sexp.kinds_list] at hts
    obtain ⟨t, ts, rfl, ht, hts⟩ := List.map_eq_cons_iff.1 hts
    obtain ⟨us, vs, rfl, hus, hvs⟩ := List.map_eq_append_iff.1 hts
    obtain ⟨u, vs, rfl, hu, hvs⟩ := List.map_eq_cons_iff.1 hvs
    obtain rfl := List.map_eq_nil_iff.1 hvs
    -- the parenthesis opens a list, the items are added to it, the last token closes it
    obtain ⟨fs, hfs, hitems⟩ := takes_all ih
      (r := ⟨r.depth + 1, ⟨t.pos, []⟩ :: r.stack, r.done⟩) hus fun x hx => by
        have hlt := Sexp.height_lt_heightAll hx
        dsimp only
        omega
    refine ⟨.list fs t.pos, by rw [bare_list, hfs], ?_⟩
    rw [steps_cons, step_opening ht (by omega)]
    show steps _ (us ++ [u]) = _
    rw [steps_append, hitems, foldl_add_pending]
    show steps _ [u] = _
    rw [steps_cons, step, hu, List.append_nil]
    simp only [List.reverse_reverse, Nat.add_sub_cancel]
    rfl

/-- The tokens of the form are not taken where it lies too deep. -/
def Refuses (x : Sexp) : Prop :=
  ∀ (r : Reader) (ts : List Token), ts.map Token.kind = x.kinds → maxDepth < r.depth + x.height →
    r.steps ts = .error (.limit .parseDepth)

/-- No form starts inside too many lists. -/
theorem steps_too_deep {r : Reader} {t : Token} (h : maxDepth < r.depth)
    (hclosing : t.kind ≠ .closing) (heof : t.kind ≠ .eof) (ts : List Token) :
    r.steps (t :: ts) = .error (.limit .parseDepth) := by
  rw [steps_cons, step, enter_eq_error h]
  cases hkind : t.kind with
  | closing => exact absurd hkind hclosing
  | eof => exact absurd hkind heof
  | _ => rfl

theorem refuses_atom {x : Sexp} {k : TokenKind} (hk : x.kinds = [k]) (hheight : x.height = 0)
    (hclosing : k ≠ .closing) (heof : k ≠ .eof) : Refuses x := by
  intro r ts hts hdepth
  rw [hk] at hts
  obtain ⟨t, ts, rfl, rfl, -⟩ := List.map_eq_cons_iff.1 hts
  exact steps_too_deep (by omega) hclosing heof ts

/-- The forms before the first that lies too deep are taken, and that one fails. -/
theorem refuses_items {xs : List Sexp} (hxs : ∀ x ∈ xs, Refuses x) {r : Reader} {ts : List Token}
    (hts : ts.map Token.kind = xs.flatMap Sexp.kinds)
    (hdeep : ∃ x ∈ xs, maxDepth < r.depth + x.height) :
    r.steps ts = .error (.limit .parseDepth) := by
  induction xs generalizing r ts with
  | nil =>
    obtain ⟨x, hx, -⟩ := hdeep
    cases hx
  | cons x xs ih =>
    rw [List.forall_mem_cons] at hxs
    rw [List.flatMap_cons] at hts
    obtain ⟨us, vs, rfl, hus, hvs⟩ := List.map_eq_append_iff.1 hts
    rw [steps_append]
    by_cases hx : maxDepth < r.depth + x.height
    · rw [hxs.1 r us hus hx]
      rfl
    · obtain ⟨f, -, hsteps⟩ := takes x r us hus (Nat.not_lt.1 hx)
      obtain ⟨y, hy, hdeep⟩ := hdeep
      rcases List.mem_cons.1 hy with rfl | hy
      · exact absurd hdeep hx
      rw [hsteps]
      exact ih hxs.2 hvs ⟨y, hy, by rwa [depth_add]⟩

theorem refuses (x : Sexp) : Refuses x := by
  induction x using Sexp.induction with
  | int n => exact refuses_atom rfl rfl (by simp) (by simp)
  | hex bytes => exact refuses_atom rfl rfl (by simp) (by simp)
  | sym name => exact refuses_atom rfl rfl (by simp) (by simp)
  | list items ih =>
    intro r ts hts hdepth
    rw [Sexp.height] at hdepth
    rw [Sexp.kinds_list] at hts
    obtain ⟨t, ts, rfl, ht, hts⟩ := List.map_eq_cons_iff.1 hts
    by_cases hr : maxDepth < r.depth
    · exact steps_too_deep hr (by simp [ht]) (by simp [ht]) ts
    -- the list itself may start here, so one of its items lies too deep
    obtain ⟨us, vs, rfl, hus, -⟩ := List.map_eq_append_iff.1 hts
    obtain ⟨x, hx, hheight⟩ := Sexp.exists_height_of_heightAll (maxDepth - r.depth)
      (show _ < Sexp.heightAll items by omega)
    have hdeep := refuses_items ih (r := ⟨r.depth + 1, ⟨t.pos, []⟩ :: r.stack, r.done⟩) hus
      ⟨x, hx, by dsimp only; omega⟩
    rw [steps_cons, step_opening ht (Nat.not_lt.1 hr)]
    show steps _ (us ++ vs) = _
    rw [steps_append, hdeep]
    rfl

end Reader

/-! ## Reading a token stream -/

/-- The tokens before the first `eof`. -/
def upToEof (tokens : List Token) : List Token :=
  tokens.takeWhile fun t => t.kind ≠ .eof

theorem upToEof_of_kinds {tokens : List Token} {ks : List TokenKind} (hks : TokenKind.eof ∉ ks)
    (h : tokens.map Token.kind = ks ++ [.eof]) : (upToEof tokens).map Token.kind = ks := by
  obtain ⟨ts, us, rfl, rfl, hus⟩ := List.map_eq_append_iff.1 h
  obtain ⟨u, us, rfl, hu, -⟩ := List.map_eq_cons_iff.1 hus
  have hts : ∀ t ∈ ts, decide (t.kind ≠ .eof) = true := by
    intro t ht
    refine decide_eq_true fun heof => hks ?_
    rw [← heof]
    exact List.mem_map_of_mem ht
  rw [upToEof, List.takeWhile_append_of_pos hts, List.takeWhile_cons_of_neg (by simp [hu]),
    List.append_nil]

/-- **What is read has the tokens it was read from**, with their places. -/
theorem flatten_of_read {tokens : List Token} {fs : List Form} (h : read tokens = .ok fs) :
    fs.flatMap flatten = (upToEof tokens).map Token.kept := by
  obtain ⟨pos, hrun⟩ := Reader.empty.run_eq default tokens
  rw [read, hrun] at h
  obtain ⟨r, hsteps, h⟩ := bind_eq_ok.1 h
  have htaken := Reader.flatten_steps (fun t ht => by simpa using List.mem_takeWhile_imp ht) hsteps
  unfold Reader.finish at h
  split at h
  · next hstack =>
    obtain rfl := Except.ok.inj h
    rw [Reader.flatten, hstack, List.reverse_nil, List.flatMap_nil, List.append_nil] at htaken
    exact htaken
  · cases h

theorem flatMap_kinds {fs : List Form} {ts : List Token}
    (h : fs.flatMap flatten = ts.map Token.kept) :
    fs.flatMap (·.bare.kinds) = ts.map Token.kind := by
  calc fs.flatMap (·.bare.kinds)
      = (fs.flatMap flatten).map Prod.fst := by
        rw [List.map_flatMap, List.flatMap_congr fun f _ => map_fst_flatten f]
    _ = ts.map Token.kind := by
        rw [h, List.map_map]
        rfl

theorem kinds_of_read {tokens : List Token} {fs : List Form} (h : read tokens = .ok fs) :
    fs.flatMap (·.bare.kinds) = (upToEof tokens).map Token.kind :=
  flatMap_kinds (flatten_of_read h)

/-- **The tokens of a form are read as this form** if none of its parts lies too deep. -/
theorem read_kinds {x : Sexp} {tokens : List Token} (h : tokens.map Token.kind = x.kinds ++ [.eof])
    (hheight : x.height ≤ maxDepth) : ∃ f, f.bare = x ∧ read tokens = .ok [f] := by
  obtain ⟨pos, hrun⟩ := Reader.empty.run_eq default tokens
  obtain ⟨f, hf, hsteps⟩ := Reader.takes x .empty (upToEof tokens)
    (upToEof_of_kinds x.eof_notMem_kinds h) (by simpa [Reader.empty] using hheight)
  refine ⟨f, hf, ?_⟩
  rw [read, hrun]
  show (Reader.empty.steps (upToEof tokens) >>= fun r => r.finish pos) = _
  rw [hsteps]
  rfl

theorem read_kinds_error {x : Sexp} {tokens : List Token}
    (h : tokens.map Token.kind = x.kinds ++ [.eof]) (hheight : maxDepth < x.height) :
    read tokens = .error (.limit .parseDepth) := by
  obtain ⟨pos, hrun⟩ := Reader.empty.run_eq default tokens
  have hsteps := Reader.refuses x .empty (upToEof tokens)
    (upToEof_of_kinds x.eof_notMem_kinds h) (by simpa [Reader.empty] using hheight)
  rw [read, hrun]
  show (Reader.empty.steps (upToEof tokens) >>= fun r => r.finish pos) = _
  rw [hsteps]
  rfl

end Form

/-! ## Depth and nesting -/

namespace Sexp

theorem nestingFrom_append (opened : Nat) (ks ls : List TokenKind) :
    Token.nestingFrom opened (ks ++ ls)
      = max (Token.nestingFrom opened ks)
          (Token.nestingFrom (ks.foldl Token.openAfter opened) ls) := by
  induction ks generalizing opened with
  | nil =>
    have hle : opened ≤ Token.nestingFrom opened ls := by
      cases ls with
      | nil => exact Nat.le_refl _
      | cons k ls => exact Nat.le_max_left _ _
    exact (Nat.max_eq_right hle).symm
  | cons k ks ih =>
    rw [List.cons_append, Token.nestingFrom, ih, Token.nestingFrom, List.foldl_cons, Nat.max_assoc]

theorem foldl_openAfter_flatMap {xs : List Sexp}
    (h : ∀ x ∈ xs, ∀ opened, x.kinds.foldl Token.openAfter opened = opened) (opened : Nat) :
    (xs.flatMap kinds).foldl Token.openAfter opened = opened := by
  induction xs with
  | nil => rfl
  | cons x xs ih =>
    rw [List.forall_mem_cons] at h
    rw [List.flatMap_cons, List.foldl_append, h.1, ih h.2]

/-- All parentheses of a form are closed in it. -/
theorem foldl_openAfter_kinds (x : Sexp) (opened : Nat) :
    x.kinds.foldl Token.openAfter opened = opened := by
  induction x using Sexp.induction generalizing opened with
  | int n => rfl
  | hex bytes => rfl
  | sym name => rfl
  | list items ih =>
    rw [kinds_list, List.foldl_cons, List.foldl_append, foldl_openAfter_flatMap ih]
    rfl

/-- No list in the form is empty. -/
inductive Full : Sexp → Prop
  | int (n : Nat) : Full (.int n)
  | hex (bytes : List UInt8) : Full (.hex bytes)
  | sym (name : String) : Full (.sym name)
  | list {items : List Sexp} (hne : items ≠ []) (h : ∀ x ∈ items, Full x) : Full (.list items)

/-- The deepest of several forms decides. -/
theorem nestingFrom_flatMap {xs : List Sexp}
    (h : ∀ x ∈ xs, ∀ opened, Token.nestingFrom opened x.kinds = opened + x.height) (opened : Nat) :
    Token.nestingFrom opened (xs.flatMap kinds) + 1
      = max (opened + 1) (opened + heightAll xs) := by
  induction xs with
  | nil => exact (Nat.max_eq_left (Nat.le_succ _)).symm
  | cons x xs ih =>
    rw [List.forall_mem_cons] at h
    have hrest := ih h.2
    rw [List.flatMap_cons, nestingFrom_append, foldl_openAfter_kinds, h.1, heightAll]
    omega

/-- Around the innermost part of a form without empty lists the most parentheses are open. -/
theorem Full.nestingFrom_eq {x : Sexp} (h : x.Full) (opened : Nat) :
    Token.nestingFrom opened x.kinds = opened + x.height := by
  induction h generalizing opened with
  | int n => exact Nat.max_self _
  | hex bytes => exact Nat.max_self _
  | sym name => exact Nat.max_self _
  | @list items hne _ ih =>
    -- inside a list that is not empty some part lies deeper than its parenthesis
    have hpos : 0 < heightAll items := by
      cases items with
      | nil => exact absurd rfl hne
      | cons x xs =>
        rw [heightAll]
        omega
    have hinside := nestingFrom_flatMap ih (opened + 1)
    have hclosed : (items.flatMap kinds).foldl Token.openAfter (opened + 1) = opened + 1 :=
      foldl_openAfter_flatMap (fun x _ => foldl_openAfter_kinds x) _
    rw [height, kinds_list, Token.nestingFrom, Token.openAfter, nestingFrom_append, hclosed,
      Token.nestingFrom, Token.openAfter, Token.nestingFrom]
    omega

end Sexp

end Arithmetization
