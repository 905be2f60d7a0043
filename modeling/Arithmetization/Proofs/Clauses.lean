import Arithmetization.Grammar.Module
import Arithmetization.Proofs.Acceptance

/-!
Runs of clauses.

A list of clauses is read with one state and one list of faults, to which every clause may add. If
there is none at the end there was none on the way, and each clause was accepted in the state that
those before it left: this is a run (`Grammar.foldl_eq_iff`). Statements, constants, functions and
registers are all read like this. For each of them there is one equivalence that says what a clause
does, and one for the whole: a body, a function, a procedure and a set of registers are accepted
exactly as these say, and the functions that read them are not looked into elsewhere.
-/

set_option autoImplicit false

namespace Arithmetization

/-- The first symbol of a list. -/
theorem Form.head?_eq_some {f : Form} {name : String} :
    f.head? = some name ↔ ∃ p args pos, f = .list (.sym name p :: args) pos := by
  constructor
  · intro h
    cases f with
    | list items pos =>
      cases items with
      | nil => cases h
      | cons g args =>
        cases g with
        | sym s p =>
          obtain rfl := Option.some.inj h
          exact ⟨p, args, pos, rfl⟩
        | _ => cases h
    | _ => cases h
  · rintro ⟨p, args, pos, rfl⟩
    rfl

/-- The symbol that a list starts with. -/
def Sexp.head? : Sexp → Option String
  | .list (.sym name :: _) => some name
  | _ => none

theorem Form.head?_bare (f : Form) : f.bare.head? = f.head? := by
  cases f with
  | list items pos =>
    rw [bare_list]
    cases items with
    | nil => rfl
    | cons g items =>
      cases g with
      | list inner p =>
        rw [List.map_cons, bare_list]
        rfl
      | _ => rfl
  | _ => rfl

namespace Grammar

open Form

/-! ## Runs without a fault -/

/-- A run of steps, one for each item of a list. -/
inductive Runs {σ α : Type} (next : σ → α → σ → Prop) : σ → List α → σ → Prop
  | nil (s : σ) : Runs next s [] s
  | cons {s s₁ s₂ : σ} {x : α} {xs : List α} (h : next s x s₁) (hs : Runs next s₁ xs s₂) :
      Runs next s (x :: xs) s₂

namespace Runs

variable {σ α β : Type} {next : σ → α → σ → Prop} {s s' s'' : σ} {xs : List α} {x : α}

theorem snoc (h : Runs next s xs s') (hx : next s' x s'') : Runs next s (xs ++ [x]) s'' := by
  induction h with
  | nil s => exact .cons hx (.nil s'')
  | cons h _ ih => exact .cons h (ih hx)

theorem map_iff {g : β → α} {ys : List β} :
    Runs next s (ys.map g) s' ↔ Runs (fun s y s' => next s (g y) s') s ys s' := by
  induction ys generalizing s with
  | nil =>
    constructor
    · intro h
      cases h
      exact .nil _
    · intro h
      cases h
      exact .nil _
  | cons y ys ih =>
    constructor
    · intro h
      cases h with
      | cons h hs => exact .cons h (ih.1 hs)
    · intro h
      cases h with
      | cons h hs => exact .cons h (ih.2 hs)

/-- What every step of a run keeps, the run keeps. -/
theorem invariant {P : σ → Prop} (h : Runs next s xs s')
    (hstep : ∀ x ∈ xs, ∀ s s', next s x s' → P s → P s') (hs : P s) : P s' := by
  induction h with
  | nil _ => exact hs
  | cons h _ ih =>
    rw [List.forall_mem_cons] at hstep
    exact ih hstep.2 (hstep.1 _ _ h hs)

theorem exists_next (h : Runs next s xs s') : ∀ x ∈ xs, ∃ s₁ s₂, next s₁ x s₂ := by
  induction h with
  | nil => simp
  | cons hnext _ ih => exact List.forall_mem_cons.2 ⟨⟨_, _, hnext⟩, ih⟩

end Runs

/-- **No fault at the end means none on the way**, since no step takes a fault away. -/
theorem foldl_eq_iff {σ : Type} {next : σ → Form → σ → Prop}
    {step : σ × List Fault → Form → σ × List Fault}
    (hstep : ∀ s faults f s', step (s, faults) f = (s', []) ↔ faults = [] ∧ next s f s')
    {fs : List Form} {s s' : σ} {faults : List Fault} :
    fs.foldl step (s, faults) = (s', []) ↔ faults = [] ∧ Runs next s fs s' := by
  induction fs generalizing s faults with
  | nil =>
    rw [List.foldl_nil, Prod.mk.injEq, and_comm]
    refine and_congr_right fun _ => ⟨?_, ?_⟩
    · rintro rfl
      exact .nil s
    · intro h
      cases h
      rfl
  | cons f fs ih =>
    rcases hf : step (s, faults) f with ⟨s₁, faults₁⟩
    rw [List.foldl_cons, hf, ih]
    constructor
    · rintro ⟨rfl, hrun⟩
      obtain ⟨hfaults, hnext⟩ := (hstep s faults f s₁).1 hf
      exact ⟨hfaults, .cons hnext hrun⟩
    · rintro ⟨hfaults, hrun⟩
      cases hrun with
      | cons hnext hrun =>
        obtain ⟨rfl, rfl⟩ := Prod.mk.inj (hf.symm.trans ((hstep s faults f _).2 ⟨hfaults, hnext⟩))
        exact ⟨rfl, hrun⟩

/-- Steps that each append one entry. -/
theorem runs_append_iff {α β : Type} {R : α → β → Prop} {xs : List α} {ys ys' : List β} :
    Runs (fun ys x ys' => ∃ y, R x y ∧ ys' = ys ++ [y]) ys xs ys' ↔
      ∃ zs, ys' = ys ++ zs ∧ List.Forall₂ R xs zs := by
  induction xs generalizing ys with
  | nil =>
    constructor
    · intro h
      cases h
      exact ⟨[], (List.append_nil _).symm, .nil⟩
    · rintro ⟨zs, rfl, hzs⟩
      cases hzs
      rw [List.append_nil]
      exact .nil _
  | cons x xs ih =>
    constructor
    · intro h
      cases h with
      | cons hx hxs =>
        obtain ⟨y, hy, rfl⟩ := hx
        obtain ⟨zs, rfl, hzs⟩ := ih.1 hxs
        exact ⟨y :: zs, by rw [List.append_assoc, List.singleton_append], .cons hy hzs⟩
    · rintro ⟨zs, rfl, hzs⟩
      cases hzs with
      | @cons _ y _ zs hy hzs =>
        refine .cons ⟨y, hy, rfl⟩ (ih.2 ⟨zs, ?_, hzs⟩)
        rw [List.append_assoc, List.singleton_append]

/-! ## Statements and bodies -/

variable {cx : Context}

/-- What a statement does to a body in the making. -/
inductive Does (cx : Context) (b : Builder) : Sexp → Builder → Prop
  | declare {s : Shape} (hs : s.Writable) :
      Does cx b (.list (.sym "local" :: s.sexps)) (b.declare s).1
  | store {target id : Nat} {x : Sexp} {a : Arena} {b' : Builder} (htarget : target < indexBound)
      (hx : Appends cx b.shapes b.arena x a id)
      (hstore : Builder.store { b with arena := a } target id = .ok b') :
      Does cx b (.list [.sym "store.local", .int target, x]) b'

theorem store_eq_ok {b b' : Builder} {st : Form} :
    store cx b st = .ok b' ↔ ∃ x target y id a, st.bare = .list [x, .int target, y]
      ∧ target < indexBound ∧ Appends cx b.shapes b.arena y a id
      ∧ Builder.store { b with arena := a } target id = .ok b' := by
  constructor
  · intro h
    unfold store at h
    split at h
    · next g target value hitems =>
      obtain ⟨n, hn, h⟩ := bind_eq_ok.1 h
      obtain ⟨⟨b₁, id⟩, hid, h⟩ := bind_eq_ok.1 h
      obtain ⟨htarget, hlt⟩ := index_eq_ok.1 hn
      obtain ⟨a, ha, rfl⟩ := expr_eq_ok.1 hid
      refine ⟨g.bare, n, value.bare, id, a, ?_, hlt, ha, located_eq_ok.1 h⟩
      cases st with
      | list items pos =>
        obtain rfl : items = [g, target, value] := hitems
        rw [bare_list, List.map_cons, List.map_cons, List.map_singleton, htarget]
      | _ => cases hitems
    · cases h
  · rintro ⟨x, target, y, id, a, hst, hlt, ha, hstore⟩
    obtain ⟨items, pos, rfl, hitems⟩ := bare_eq_list.1 hst
    obtain ⟨g, rest, rfl, -, hrest⟩ := List.map_eq_cons_iff.1 hitems
    obtain ⟨t, value, rfl, ht, rfl⟩ := forall₂_two (map_bare_eq.1 hrest)
    exact bind_eq_ok.2 ⟨target, index_eq_ok.2 ⟨ht, hlt⟩, bind_eq_ok.2
      ⟨_, expr_eq_ok.2 ⟨a, ha, rfl⟩, located_eq_ok.2 hstore⟩⟩

theorem statement_eq_iff (cx : Context) (b : Builder) (faults : List Fault) (st : Form)
    (b' : Builder) :
    statement cx (b, faults) st = (b', []) ↔ faults = [] ∧ Does cx b st.bare b' := by
  constructor
  · intro h
    rw [statement] at h
    split at h
    · next hhead =>
      obtain ⟨p, args, pos, rfl⟩ := head?_eq_some.1 hhead
      split at h
      · next s hs =>
        obtain ⟨rfl, rfl⟩ := Prod.mk.inj h
        obtain ⟨hargs, hwritable⟩ := type_eq_ok.1 hs
        have hargs : args.map bare = s.sexps := hargs
        refine ⟨rfl, ?_⟩
        rw [bare_list, List.map_cons, hargs]
        exact .declare hwritable
      · exact absurd (Prod.mk.inj h).2 (by simp)
    · next hhead =>
      obtain ⟨p, args, pos, rfl⟩ := head?_eq_some.1 hhead
      split at h
      · next b₁ hstore =>
        obtain ⟨rfl, rfl⟩ := Prod.mk.inj h
        obtain ⟨x, target, y, id, a, hst, hlt, ha, hb⟩ := store_eq_ok.1 hstore
        refine ⟨rfl, ?_⟩
        -- the head is known twice, from the branch and from the store that was read
        rw [bare_list, List.map_cons, bare] at hst
        obtain ⟨rfl, -⟩ := List.cons.inj (Sexp.list.inj hst)
        rw [bare_list, List.map_cons, bare, hst]
        exact .store hlt ha hb
      · split at h
        · exact absurd (Prod.mk.inj h).2 (by simp)
        · exact absurd (Prod.mk.inj h).2 (by simp)
    · exact absurd (Prod.mk.inj h).2 (by simp)
  · rintro ⟨rfl, h⟩
    generalize hst : st.bare = x at h
    cases h with
    | @declare s hs =>
      obtain ⟨p, args, pos, rfl, hargs⟩ := bare_eq_clause.1 hst
      have htype : type (Form.list (.sym "local" p :: args) pos).pos
          (Form.list (.sym "local" p :: args) pos).operands = .ok s := type_eq_ok.2 ⟨hargs, hs⟩
      have hhead : (Form.list (.sym "local" p :: args) pos).head? = some "local" := rfl
      simp only [statement, hhead, htype]
    | store hlt ha hb =>
      have hstore := store_eq_ok.2 ⟨_, _, _, _, _, hst, hlt, ha, hb⟩
      obtain ⟨p, args, pos, rfl, -⟩ := bare_eq_clause.1 hst
      have hhead : (Form.list (.sym "store.local" p :: args) pos).head? = some "store.local" := rfl
      simp only [statement, hhead, hstore]

/-- **A body is statements and a result.** -/
theorem body_eq_ok {pos : Position} {items : List Form} {body : Body} :
    Grammar.body cx pos items = .ok body ↔ ∃ xs x b a id, items.map bare = xs ++ [x]
      ∧ Runs (Does cx) .empty xs b ∧ Appends cx b.shapes b.arena x a id
      ∧ body = Builder.finish { b with arena := a } id := by
  constructor
  · intro h
    unfold Grammar.body at h
    split at h
    · cases h
    next result hlast =>
    rcases hsts : items.dropLast.foldl (statement cx) (.empty, []) with ⟨b, faults⟩
    rw [hsts] at h
    dsimp only at h
    split at h
    · next b' id hresult =>
      split at h
      · next hfaults =>
        obtain rfl := List.isEmpty_iff.1 hfaults
        obtain ⟨a, ha, rfl⟩ := expr_eq_ok.1 hresult
        obtain ⟨-, hrun⟩ := (foldl_eq_iff (statement_eq_iff cx)).1 hsts
        refine ⟨_, _, b, a, id, ?_, Runs.map_iff.2 hrun, ha, (Except.ok.inj h).symm⟩
        rw [← List.map_singleton, ← List.map_append, List.dropLast_append_getLast? result hlast]
      · cases h
    · cases h
  · rintro ⟨xs, x, b, a, id, hitems, hrun, ha, rfl⟩
    obtain ⟨sts, last, rfl, rfl, hlast⟩ := List.map_eq_append_iff.1 hitems
    obtain ⟨result, rfl, rfl⟩ := List.map_eq_singleton_iff.1 hlast
    unfold Grammar.body
    rw [List.getLast?_concat, List.dropLast_concat,
      (foldl_eq_iff (statement_eq_iff cx)).2 ⟨rfl, Runs.map_iff.1 hrun⟩]
    dsimp only
    rw [expr_eq_ok.2 ⟨a, ha, rfl⟩]
    rfl

theorem body_error_ne_nil {pos : Position} {items : List Form}
    {faults : List Fault} (h : body cx pos items = .error faults) : faults ≠ [] := by
  unfold body at h
  split at h
  · cases h
    simp
  · dsimp only at h
    split at h
    · split at h
      · cases h
      · next hne =>
        cases h
        simpa using hne
    · cases h
      simp

/-! ## Functions and procedures -/

theorem ofBody_result {params : List Shape} {result : Shape} {b : Body} {f : Function}
    (h : Function.ofBody params result b = .ok f) :
    f = ⟨params, result, b⟩ ∧ b.resultShape = result := by
  unfold Function.ofBody at h
  split at h
  · next hshape => exact ⟨(Except.ok.inj h).symm, hshape⟩
  · cases h

/-- Whether a form declares a parameter. -/
def isParam (f : Form) : Bool :=
  f.head? = some "param"

theorem function_eq_ok {modulus : Nat} {constants : List Literal} {functions : List Function}
    {s : Form} {f : Function} :
    function modulus constants functions s = .ok f ↔
      ∃ result rest, s.operands = result :: rest ∧ result.head? = some "result"
        ∧ type result.pos result.operands = .ok f.result
        ∧ (rest.takeWhile isParam).mapM (fun p => type p.pos p.operands) = .ok f.params
        ∧ body ⟨modulus, constants, functions, .function f.params, .trap⟩ s.pos
            (rest.dropWhile isParam) = .ok f.body
        ∧ f.body.resultShape = f.result := by
  constructor
  · intro h
    unfold function at h
    split at h
    · next result rest hoperands =>
      split at h
      · next hhead =>
        split at h
        · cases h
        next shape hshape =>
        dsimp only at h
        split at h
        · cases h
        next params hparams =>
        obtain ⟨b, hb, h⟩ := bind_eq_ok.1 h
        split at h
        · next f' hf =>
          obtain rfl := Except.ok.inj h
          obtain ⟨rfl, hresult⟩ := ofBody_result hf
          exact ⟨result, rest, hoperands, hhead, hshape, hparams, hb, hresult⟩
        · cases h
      · cases h
    · cases h
  · rintro ⟨result, rest, hoperands, hhead, hshape, hparams, hb, hresult⟩
    have hofBody : Function.ofBody f.params f.result f.body = .ok f := if_pos hresult
    have htypes : (rest.takeWhile fun f => decide (f.head? = some "param")).mapM
        (fun p => type p.pos p.operands) = .ok f.params := hparams
    unfold function
    rw [hoperands]
    dsimp only
    rw [if_pos hhead, hshape]
    dsimp only
    rw [htypes]
    refine bind_eq_ok.2 ⟨f.body, hb, ?_⟩
    rw [hofBody]
    rfl

theorem function_error_ne_nil {modulus : Nat} {constants : List Literal} {functions : List Function}
    {s : Form} {faults : List Fault} (h : function modulus constants functions s = .error faults) :
    faults ≠ [] := by
  unfold function at h
  split at h
  · split at h
    · split at h
      · cases h
        simp
      dsimp only at h
      split at h
      · cases h
        simp
      obtain hbody | ⟨b, -, h⟩ := bind_eq_error.1 h
      · exact body_error_ne_nil hbody
      · split at h
        · cases h
        · cases h
          simp
    · cases h
      simp
  · cases h
    simp

theorem procedure_eq_ok {cx : Context} {kind : ProcedureKind} {width : Nat} {s : Form}
    {p : Procedure} :
    procedure cx kind width s = .ok p ↔
      p.kind = kind ∧ p.width = width ∧ 0 < width
        ∧ body cx s.pos (s.items.drop 3) = .ok p.body ∧ p.body.resultShape = .vector width := by
  rw [procedure, bind_eq_ok]
  constructor
  · rintro ⟨b, hb, h⟩
    split at h
    · next p' hp =>
      obtain rfl := Except.ok.inj h
      unfold Procedure.ofBody at hp
      split at hp
      · next hshape =>
        obtain rfl := Except.ok.inj hp
        exact ⟨rfl, rfl, hshape.1, hb, hshape.2⟩
      · cases hp
    · cases h
  · rintro ⟨rfl, rfl, hpos, hb, hshape⟩
    have hofBody : Procedure.ofBody p.kind p.width p.body = .ok p := if_pos ⟨hpos, hshape⟩
    refine ⟨p.body, hb, ?_⟩
    rw [hofBody]
    rfl

theorem procedure_error_ne_nil {cx : Context} {kind : ProcedureKind} {width : Nat} {s : Form}
    {faults : List Fault} (h : procedure cx kind width s = .error faults) : faults ≠ [] := by
  rw [procedure] at h
  cases hb : body cx s.pos (s.items.drop 3) with
  | error fs =>
    rw [hb] at h
    cases h
    exact body_error_ne_nil hb
  | ok b =>
    rw [hb] at h
    dsimp only [bind, Except.bind] at h
    split at h
    · cases h
    · cases h
      simp

/-! ## Constants, functions and registers -/

theorem constantStep_eq_iff (modulus : Nat) (cs : List Literal) (faults : List Fault) (f : Form)
    (cs' : List Literal) :
    constantStep modulus (cs, faults) f = (cs', []) ↔
      faults = [] ∧ ∃ c, literal modulus f.pos f.operands = .ok c ∧ cs' = cs ++ [c] := by
  rw [constantStep]
  cases literal modulus f.pos f.operands with
  | ok c => simp [and_comm, eq_comm]
  | error fault => simp

/-- **The constants of a module are read one by one.** -/
theorem constants_eq_iff {modulus : Nat} {fs : List Form} {cs : List Literal} :
    fs.foldl (constantStep modulus) ([], []) = (cs, []) ↔
      List.Forall₂ (fun f c => literal modulus f.pos f.operands = .ok c) fs cs := by
  rw [foldl_eq_iff (constantStep_eq_iff modulus), runs_append_iff]
  simp

theorem functionStep_eq_iff (modulus : Nat) (constants : List Literal) (fs : List Function)
    (faults : List Fault) (s : Form) (fs' : List Function) :
    functionStep .trap modulus constants (fs, faults) s = (fs', []) ↔
      faults = [] ∧ ∃ f, function modulus constants fs s = .ok f ∧ fs' = fs ++ [f] := by
  rw [functionStep]
  cases hf : function modulus constants fs s with
  | ok f => simp [and_comm, eq_comm]
  | error faults' => simp [function_error_ne_nil hf]

/-- A section adds the function that it is, which may call those before it. -/
def AddsFunction (modulus : Nat) (constants : List Literal) (fs : List Function) (s : Form)
    (fs' : List Function) : Prop :=
  ∃ f, function modulus constants fs s = .ok f ∧ fs' = fs ++ [f]

/-- **The functions of a module are read one by one**, each among those before it. -/
theorem functions_eq_iff {modulus : Nat} {constants : List Literal} {ss : List Form}
    {fs : List Function} :
    ss.foldl (functionStep .trap modulus constants) ([], []) = (fs, []) ↔
      Runs (AddsFunction modulus constants) [] ss fs := by
  rw [foldl_eq_iff (functionStep_eq_iff modulus constants)]
  exact and_iff_right rfl

theorem registerStep_eq_iff (b : RegisterBuilder) (faults : List Fault) (f : Form)
    (b' : RegisterBuilder) :
    registerStep (b, faults) f = (b', []) ↔ faults = [] ∧ register b f = .ok b' := by
  rw [registerStep]
  cases register b f with
  | ok b₁ => simp [and_comm]
  | error fault => simp

theorem registers_eq_ok {modulus : Nat} {s : Form} {set : RegisterSet} :
    registers modulus s = .ok set ↔ ∃ b, b.build = .ok set
      ∧ Runs (fun b f b' => register b f = .ok b') (.empty modulus) s.operands b := by
  unfold registers
  rcases hsteps : s.operands.foldl registerStep (.empty modulus, []) with ⟨b, faults⟩
  dsimp only
  constructor
  · intro h
    split at h
    · next hfaults =>
      obtain rfl := List.isEmpty_iff.1 hfaults
      exact ⟨b, h, ((foldl_eq_iff registerStep_eq_iff).1 hsteps).2⟩
    · cases h
  · rintro ⟨b', hbuild, hrun⟩
    have hsteps' := (foldl_eq_iff registerStep_eq_iff).2 ⟨rfl, hrun⟩
    obtain ⟨rfl, rfl⟩ := Prod.mk.inj (hsteps.symm.trans hsteps')
    exact hbuild

theorem registers_error_ne_nil {modulus : Nat} {s : Form} {faults : List Fault}
    (h : registers modulus s = .error faults) : faults ≠ [] := by
  unfold registers at h
  rcases hsteps : s.operands.foldl registerStep (.empty modulus, []) with ⟨b, fs⟩
  rw [hsteps] at h
  dsimp only at h
  split at h
  · unfold RegisterBuilder.build at h
    dsimp only at h
    split at h
    · cases h
    · next hne =>
      obtain rfl := Except.error.inj h
      simpa using hne
  · next hne =>
    obtain rfl := Except.error.inj h
    simpa using hne

end Grammar

end Arithmetization
