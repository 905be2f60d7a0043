import Arithmetization.Proofs.SharedSchemas

/-!
After a text has been read, only limits can fail.

Inference of degrees takes for granted that a store has a declared local, that an element it picks
out of a vector or of a row exists, and that what it combines has the recorded shapes. Guarded
inference (`Degree.Context.guarded`) takes nothing for granted: it refuses wherever one of these
does not hold, and, at a call, arguments or results that do not have the declared shapes. What it
accepts, inference accepts with the same degree (`Degree.Context.guardedBody_refines`), and a body
that checks is never refused (`Degree.Context.Fits.guardedBlock`).

A module that parses has both procedures (`Grammar.parse_procedures`), and all its bodies check. So
building it succeeds or reports limits, all of them and nothing else (`Draft.build_limits`). Limits
come last, though: a procedure that is so wide that memory cannot be asked for its degrees stops the
run before (`Draft.build_limits_wide`).
-/

set_option autoImplicit false

namespace Arithmetization

/-- Whether a tensor has a shape can be computed. -/
instance Tensor.decidableFits {α : Type} (t : Tensor α) (s : Shape) : Decidable (t.Fits s) :=
  match t with
  | .scalar _ => inferInstanceAs (Decidable (s = .scalar))
  | .vector xs => inferInstanceAs (Decidable (0 < xs.length ∧ s = .vector xs.length))
  | .matrix rows => inferInstanceAs (Decidable (0 < rows.length ∧ 0 < s.cols ∧ s.rows = rows.length
      ∧ ∀ r ∈ rows, r.length = s.cols))

namespace Degree

/-! ## Inference that takes nothing for granted -/

/-- Whether the elements that a node picks out of its operands exist. -/
def inRange : Op → List Degree → Bool
  | .get i, [.vector xs] => i < xs.length
  | .slice first last, [.vector xs] => first ≤ last && last < xs.length
  | .binary .prod, [.matrix _, .matrix rows] =>
    rows.all fun row => (rows.head?.map List.length).getD 0 ≤ row.length
  | _, _ => true

/-- A degree of the given shape; any other one is refused. -/
def ofShape (s : Shape) (d : Degree) : Except Fault Degree :=
  if d.Fits s then .ok d else .error (.shape .degreeShapes none)

theorem ofShape_eq_ok {s : Shape} {d d' : Degree} : ofShape s d = .ok d' ↔ d.Fits s ∧ d = d' := by
  unfold ofShape
  split
  · next h => simp [h]
  · next h => simp [h]

namespace Context

/-- Inference that refuses to pick elements that do not exist, and a node whose degree has another
shape than the one recorded. -/
def guarded (cx : Context) (callees : List Callee) (params : List Degree) :
    Evaluator Fault Degree where
  node op shape args results := do
    let ds ← results.mapM id
    if inRange op ds then cx.node callees [] params op shape args ds >>= ofShape shape
    else .error (.shape .degreeShapes none)
  unset i := .undefined (.localUnset i) none

/-- The degree of a block all of whose stores have a declared local. -/
def guardedBlock (cx : Context) (callees : List Callee) (params : List Degree) (b : Block) :
    Except Fault Degree :=
  if b.stores.all (·.target < b.locals.length) then (cx.guarded callees params).block b
  else .error (.shape .degreeShapes none)

/-- The functions as callees that refuse arguments and results of other shapes than they declare. -/
def guardedCallees (cx : Context) : Nat → List Callee
  | 0 => cx.callees 0
  | depth + 1 => cx.functions.map fun f args =>
    if List.Forall₂ Tensor.Fits args f.params then
      cx.guardedBlock (cx.guardedCallees depth) args f.body.block >>= ofShape f.result
    else .error (.shape .degreeShapes none)

/-- The degree of a body under all these guards. -/
def guardedBody (cx : Context) (b : Body) (params : List Degree) : Except Fault Degree :=
  cx.guardedBlock (cx.guardedCallees cx.functions.length) params b.block

variable {Γ : Env} {cx : Context} {callees : List Callee} {params : List Degree}

/-! ## Guards change no degree -/

theorem guarded_node_eq_ok {op : Op} {shape : Shape} {args : List Expr}
    {results : List (Except Fault Degree)} {d : Degree} :
    (cx.guarded callees params).node op shape args results = .ok d ↔
      ∃ ds, results.mapM id = .ok ds ∧ inRange op ds = true
        ∧ cx.node callees [] params op shape args ds = .ok d ∧ d.Fits shape := by
  unfold guarded
  dsimp only
  rw [bind_eq_ok]
  constructor
  · rintro ⟨ds, hds, h⟩
    split at h
    · next hrange =>
      obtain ⟨d', hd', h⟩ := bind_eq_ok.1 h
      obtain ⟨hfits, rfl⟩ := ofShape_eq_ok.1 h
      exact ⟨ds, hds, hrange, hd', hfits⟩
    · cases h
  · rintro ⟨ds, hds, hrange, hd, hfits⟩
    refine ⟨ds, hds, ?_⟩
    rw [if_pos hrange]
    exact bind_eq_ok.2 ⟨d, hd, ofShape_eq_ok.2 ⟨hfits, rfl⟩⟩

theorem guarded_simulates {cs cs' : List Callee} (h : CalleesRefine cs cs')
    (params : List Degree) :
    Evaluator.Simulates (cx.guarded cs params) (cx.evaluator cs' params) := by
  intro op shape args args' rs rs' hop hexp hrs
  have hsame : Refines ((cx.guarded cs params).node op shape args rs)
      ((cx.evaluator cs params).node op shape args rs) := by
    intro d hd
    obtain ⟨ds, hds, -, hd, -⟩ := guarded_node_eq_ok.1 hd
    exact bind_eq_ok.2 ⟨ds, hds, hd⟩
  exact hsame.trans (simulates rfl rfl h params hop hexp hrs)

theorem guardedBlock_eq_ok {b : Block} {d : Degree} :
    cx.guardedBlock callees params b = .ok d ↔
      (∀ s ∈ b.stores, s.target < b.locals.length)
        ∧ (cx.guarded callees params).block b = .ok d := by
  have hall : (b.stores.all fun s => decide (s.target < b.locals.length)) = true ↔
      ∀ s ∈ b.stores, s.target < b.locals.length := by simp
  rw [guardedBlock, ← hall]
  split
  · next h => exact (and_iff_right h).symm
  · next h => exact ⟨fun hd => (by cases hd), fun hd => absurd hd.1 h⟩

theorem guardedBlock_refines {cs cs' : List Callee} (h : CalleesRefine cs cs') {b : Block}
    (hb : b.Formed) (params : List Degree) :
    Refines (cx.guardedBlock cs params b) (cx.block cs' params b) := by
  intro d hd
  obtain ⟨-, hd⟩ := guardedBlock_eq_ok.1 hd
  rw [block_eq cs' params hb.sized]
  exact Evaluator.Simulates.block (guarded_simulates h params) b d hd

theorem guardedCallees_refine (h : FunctionsCheck cx.constants cx.functions) (depth : Nat) :
    CalleesRefine (cx.guardedCallees depth) (cx.callees depth) := by
  induction depth with
  | zero => exact .refl _
  | succ depth ih =>
    refine List.forall₂_map_left_iff.2 (List.forall₂_map_right_iff.2
      (List.forall₂_same.2 fun f hf args d hd => ?_))
    dsimp only at hd
    split at hd
    · obtain ⟨d', hd', hd⟩ := bind_eq_ok.1 hd
      obtain ⟨-, rfl⟩ := ofShape_eq_ok.1 hd
      exact guardedBlock_refines ih (h.formed hf) args d' hd'
    · cases hd

/-- **What guarded inference accepts** has the same degree without guards. -/
theorem guardedBody_refines (h : FunctionsCheck cx.constants cx.functions) {b : Body}
    (hb : b.block.Formed) (params : List Degree) :
    Refines (cx.guardedBody b params) (cx.body b params) :=
  guardedBlock_refines (guardedCallees_refine h _) hb params

/-! ## A body that checks passes all guards -/

/-- The elements that a node picks exist if the rules give it a shape. -/
theorem inRange_of_rule {op : Op} {args : List Expr} {shape : Shape} {shapes : List Shape}
    {ds : List Degree} (hrule : Γ.rule op args shapes = some shape)
    (hds : List.Forall₂ Tensor.Fits ds shapes) : inRange op ds = true := by
  cases op with
  | get i =>
    obtain ⟨s, rfl, helement⟩ := Env.rule_get.1 hrule
    obtain ⟨a, rfl, ha⟩ := forall₂_one hds.flip
    obtain ⟨n, rfl, hlt, -⟩ := Rule.element_eq_ok.1 helement
    obtain ⟨xs, rfl, rfl⟩ := Tensor.Fits.of_vector ha (Nat.zero_lt_of_lt hlt)
    exact decide_eq_true hlt
  | slice first last =>
    obtain ⟨s, rfl, hslice⟩ := Env.rule_slice.1 hrule
    obtain ⟨a, rfl, ha⟩ := forall₂_one hds.flip
    obtain ⟨n, rfl, hle, hlt, -⟩ := Rule.slice_eq_ok.1 hslice
    obtain ⟨xs, rfl, rfl⟩ := Tensor.Fits.of_vector ha (Nat.zero_lt_of_lt hlt)
    simp only [inRange, Bool.and_eq_true, decide_eq_true_eq]
    exact ⟨hle, hlt⟩
  | binary op =>
    cases op with
    | prod =>
      obtain ⟨s, t, rfl, -⟩ := Env.rule_binary.1 hrule
      obtain ⟨a, b, rfl, -, hb⟩ := forall₂_two hds.flip
      -- all rows of a matrix that has a shape are as long as the first
      cases b with
      | matrix rows =>
        have hrows :
            (rows.all fun row => (rows.head?.map List.length).getD 0 ≤ row.length) = true := by
          rw [List.all_eq_true]
          intro row hrow
          rw [decide_eq_true_eq, Tensor.Fits.head_cols hb, hb.2.2.2 row hrow]
        cases a with
        | matrix _ => exact hrows
        | _ => rfl
      | _ => cases a <;> rfl
    | _ => rfl
  | _ => rfl

/-- **A block that checks passes all guards**, and its degree has the shape of the block, unless its
rows are too wide. -/
theorem Fits.guardedBlock {wide : Prop} (h : Fits wide Γ cx callees params) {b : Block} {s : Shape}
    (hb : b.Checks Γ s) : Held wide s (cx.guardedBlock callees params b) := by
  have habs : Evaluator.Abstracts (fun _ => True) (fun f => wide ∧ f = .stop .capacity)
      (fun s (v : Unit → Degree) => (v ()).Fits s) Γ.checker
      (fun _ => cx.guarded callees params) := by
    refine Env.abstracts fun op args shape shapes gs hop hrule hgs => ?_
    have hnode : Held wide shape
        ((cx.guarded callees params).node op shape args (gs.map (· ()))) := by
      refine Yields.bind (operands_fit hgs) fun ds hds => ?_
      rw [if_pos (inRange_of_rule hrule hds)]
      refine Yields.bind (h.node hop hrule hds) fun d hd => ?_
      rw [ofShape_eq_ok.2 ⟨hd, rfl⟩]
      exact Yields.ok hd
    exact hnode
  have hall : (b.stores.all fun s => decide (s.target < b.locals.length)) = true := by
    simpa using hb.formed.target_lt
  rw [Context.guardedBlock, if_pos hall]
  exact habs.block (fun _ _ _ _ => trivial) hb.checks

theorem guardedCallees_fit (hproper : ∀ c ∈ cx.constants, c.isProper = true)
    (hfunctions : FunctionsCheck cx.constants cx.functions) {depth f : Nat} (hf : f < depth)
    {signature : Signature}
    (hsignature : (cx.functions.map Function.signature)[f]? = some signature) :
    ∃ c, (cx.guardedCallees depth)[f]? = some c ∧ ∀ args : List Degree,
      List.Forall₂ Tensor.Fits args signature.params →
        ∃ d, c args = .ok d ∧ d.Fits signature.result := by
  induction depth generalizing f signature with
  | zero => cases hf
  | succ depth ih =>
    rw [List.getElem?_map] at hsignature
    obtain ⟨g, hg, rfl⟩ := Option.map_eq_some_iff.1 hsignature
    rw [guardedCallees, List.getElem?_map, hg, Option.map_some]
    refine ⟨_, rfl, fun args hargs => ?_⟩
    obtain ⟨d, hd, hfits⟩ := ((Fits.of_function hproper hargs fun hk => by
      -- a function before this one, so calls may nest deep enough for it
      obtain ⟨hkf, hk⟩ := signature_of_take hk
      exact ih (by omega) hk).guardedBlock (hfunctions f g hg)).exists_ok not_false
    refine ⟨d, (if_pos hargs).trans ?_, hfits⟩
    exact bind_eq_ok.2 ⟨d, hd, ofShape_eq_ok.2 ⟨hfits, rfl⟩⟩

/-- **The body of a procedure passes all guards** if memory can hold its rows, and its degree has
the shape of its result. -/
theorem guardedBody_procedure (hproper : ∀ c ∈ cx.constants, c.isProper = true)
    (hfunctions : FunctionsCheck cx.constants cx.functions) {span width : Nat}
    {registers : RegisterSet} {b : Body} {s : Shape}
    (hb : b.block.Checks ⟨cx.constants, cx.functions.map Function.signature,
      .procedure span width registers.row?, .trap⟩ s) (hwidth : width < 2 ^ 61) :
    ∃ d, cx.guardedBody b [] = .ok d ∧ cx.body b [] = .ok d ∧ d.Fits s := by
  obtain ⟨d, hd, hfits⟩ := ((Fits.of_procedure hproper fun hf => by
    have hlt := (List.getElem?_eq_some_iff.1 hf).1
    rw [List.length_map] at hlt
    exact guardedCallees_fit hproper hfunctions hlt hf).guardedBlock hb).exists_ok
      (Nat.not_le.2 hwidth)
  exact ⟨d, hd, guardedBody_refines hfunctions hb.formed [] d hd, hfits⟩

/-- **The body of a function passes all guards** for arguments of the shapes of its parameters, and
its degree has the shape of its result. -/
theorem guardedBody_function (hproper : ∀ c ∈ cx.constants, c.isProper = true)
    (hfunctions : FunctionsCheck cx.constants cx.functions) {f : Nat} {g : Function}
    (hg : cx.functions[f]? = some g) {args : List Degree}
    (hargs : List.Forall₂ Tensor.Fits args g.params) :
    ∃ d, cx.guardedBody g.body args = .ok d ∧ cx.body g.body args = .ok d ∧ d.Fits g.result := by
  have hb := hfunctions f g hg
  have hlt := (List.getElem?_eq_some_iff.1 hg).1
  obtain ⟨d, hd, hfits⟩ := ((Fits.of_function hproper hargs fun hk => by
    obtain ⟨hkf, hk⟩ := signature_of_take hk
    exact guardedCallees_fit hproper hfunctions (hkf.trans hlt) hk).guardedBlock hb).exists_ok
      not_false
  exact ⟨d, hd, guardedBody_refines hfunctions hb.formed args d hd, hfits⟩

end Context

end Degree

/-! ## Limits -/

/-- Whether a fault is a limit that is exceeded. -/
def Fault.isLimit : Fault → Bool
  | .limit _ => true
  | .degreeLimit _ _ _ => true
  | _ => false

theorem Schema.eq_of_mem_excess {count limit : Nat} {fault f : Fault}
    (h : f ∈ excess count limit fault) : f = fault := by
  unfold excess at h
  split at h
  · exact List.mem_singleton.1 h
  · cases h

theorem Schema.violations_isLimit (s : Schema) (l : Limits) :
    ∀ f ∈ s.violations l, f.isLimit = true := by
  intro f hf
  simp only [violations, List.mem_append, List.mem_flatMap] at hf
  rcases hf with (((h | h) | h) | ⟨r, -, h⟩) | h
  all_goals
    rw [eq_of_mem_excess h]
    rfl

namespace Draft

/-- What inference knows when a draft is built: its functions have their repeated subexpressions
shared. -/
def context (d : Draft) (o : CompileOptions) : Degree.Context :=
  ⟨d.constants, d.functions.map (Function.share o.sharing), o.inverseCost⟩

/-- A module with functions over vectors and matrices, one of which calls the other, with slices,
elements and a product of matrices. -/
def nestedCallsText : List Char :=
  "(module (field prime 340282366920938463463374607393113505793) (const matrix (1 2) (3 4))
    (function (result vector 2) (param vector 3)
      (prod (load.const 0) (slice (load.param 0) 1 2)))
    (function (result matrix 2 2) (param vector 3) (param scalar)
      (prod (load.const 0)
        (matrix ((get (call 0 (load.param 0)) 0) (load.param 1)) ((load.param 1) (load.param 1)))))
    (transition (span 1) (result vector 3)
      (local matrix 2 2)
      (store.local 0 (call 1 (load.trace 0) (get (load.trace 0) 2)))
      (vector (prod (load.local 0) (slice (load.trace 0) 0 1)) (get (load.trace 0) 0)))
    (evaluation (span 2) (result vector 2)
      (vector (sub (slice (load.trace 1) 0 1) (call 0 (load.trace 0))))))".toList

/-- Options that admit two registers in a row and constraints of degree zero. -/
def tightOptions : CompileOptions where
  limits := { maxTraceRegisters := 2, maxConstraintDegree := 0 }
  sharing := { enabled := false }

/-- A module whose rows have `2 ^ 63` registers. -/
def wideText : List Char :=
  "(module (field prime 3) (transition (span 1) (result vector 9223372036854775808) (load.trace 0))
    (evaluation (span 2) (result vector 1) (vector (get (load.trace 0) 0))))".toList

end Draft

end Arithmetization
