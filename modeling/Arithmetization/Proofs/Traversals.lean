import Arithmetization.Proofs.Grounding

/-!
Walks over the nodes of an arena by number.

Recursion on a tree comes to an end because trees do. Recursion by number has no such reason:
`Arena.walk` fetches a node, walks its operands and then visits the node, and has no result if it
goes deeper than a given depth. From a node that is among its own operands no depth is enough.

If operands have smaller numbers than the nodes that use them, then a walk goes no deeper than the
number of the node that it starts from. It has a result from every node, also from a node that no
statement uses, and what one visit keeps holds of the whole walk (`Arena.Backward.walk_induction`).
Weighing, copying, numbering, rewriting and lowering are such walks. Each of them gives what the
function on trees gives, and those that make nodes keep the arena that they make them in grounded
(`Arena.Grounded.traversed`).
-/

set_option autoImplicit false

namespace Arithmetization

namespace Arena

variable {σ β ε : Type} {a : Arena}

/-! ## Walking by number -/

/-- Walk from several nodes, one after the other. A state is passed along, and a walk that fails
ends it. -/
def walkAll (walk : σ → Nat → Option (Except ε (σ × β))) (s : σ) :
    List Nat → Option (Except ε (σ × List β))
  | [] => some (.ok (s, []))
  | id :: ids => do
    match ← walk s id with
    | .error e => return .error e
    | .ok r => return (← walkAll walk r.1 ids).map fun rs => (rs.1, r.2 :: rs.2)

/-- Visit the nodes under a node, operands from left to right and before the node that uses them.
There is no result if this takes more than `depth` nodes on top of each other. -/
def walk (a : Arena) (visit : σ → Nat → Node → List β → Except ε (σ × β)) :
    Nat → σ → Nat → Option (Except ε (σ × β))
  | 0, _, _ => none
  | depth + 1, s, id => do
    let n ← a.nodes[id]?
    return (← walkAll (a.walk visit depth) s n.args).bind fun r => visit r.1 id n r.2

theorem walkAll_mono {f g : σ → Nat → Option (Except ε (σ × β))}
    (h : ∀ s id r, f s id = some r → g s id = some r) {s : σ} {ids : List Nat}
    {rs : Except ε (σ × List β)} (hrs : walkAll f s ids = some rs) : walkAll g s ids = some rs := by
  induction ids generalizing s rs with
  | nil => exact hrs
  | cons id ids ih =>
    obtain ⟨r, hr, hrs⟩ := Option.bind_eq_some_iff.1 hrs
    refine Option.bind_eq_some_iff.2 ⟨r, h s id r hr, ?_⟩
    cases r with
    | error e => exact hrs
    | ok r =>
      obtain ⟨rest, hrest, hrs⟩ := Option.bind_eq_some_iff.1 hrs
      exact Option.bind_eq_some_iff.2 ⟨rest, ih hrest, hrs⟩

/-- A result that was reached is reached at every greater depth. -/
theorem walk_mono (visit : σ → Nat → Node → List β → Except ε (σ × β)) {depth depth' : Nat}
    (hdepth : depth ≤ depth') {s : σ} {id : Nat} {r : Except ε (σ × β)}
    (h : a.walk visit depth s id = some r) : a.walk visit depth' s id = some r := by
  induction depth generalizing depth' s id r with
  | zero => cases h
  | succ depth ih =>
    obtain ⟨k, rfl⟩ : ∃ k, depth' = k + 1 := ⟨depth' - 1, by omega⟩
    obtain ⟨n, hn, h⟩ := Option.bind_eq_some_iff.1 h
    obtain ⟨rs, hrs, h⟩ := Option.bind_eq_some_iff.1 h
    have hrs' := walkAll_mono (fun _ _ _ => ih (Nat.le_of_succ_le_succ hdepth)) hrs
    exact Option.bind_eq_some_iff.2 ⟨n, hn, Option.bind_eq_some_iff.2 ⟨rs, hrs', h⟩⟩

/-- Walks from several nodes, one after the other, where `P` tells the results of single walks. -/
inductive Walked (P : Nat → σ → Except ε (σ × β) → Prop) :
    List Nat → σ → Except ε (σ × List β) → Prop
  | nil {s : σ} : Walked P [] s (.ok (s, []))
  | fail {id : Nat} {ids : List Nat} {s : σ} {e : ε} (h : P id s (.error e)) :
    Walked P (id :: ids) s (.error e)
  | cons {id : Nat} {ids : List Nat} {s : σ} {r : σ × β} {rs : Except ε (σ × List β)}
    (h : P id s (.ok r)) (hs : Walked P ids r.1 rs) :
    Walked P (id :: ids) s (rs.map fun rs => (rs.1, r.2 :: rs.2))

theorem exists_walkAll {f : σ → Nat → Option (Except ε (σ × β))}
    {P : Nat → σ → Except ε (σ × β) → Prop} {ids : List Nat}
    (h : ∀ id ∈ ids, ∀ s, ∃ r, f s id = some r ∧ P id s r) (s : σ) :
    ∃ rs, walkAll f s ids = some rs ∧ Walked P ids s rs := by
  induction ids generalizing s with
  | nil => exact ⟨_, rfl, .nil⟩
  | cons id ids ih =>
    rw [List.forall_mem_cons] at h
    obtain ⟨r, hr, hP⟩ := h.1 s
    rw [walkAll, hr]
    cases r with
    | error e => exact ⟨_, rfl, .fail hP⟩
    | ok r =>
      obtain ⟨rs, hrs, hwalked⟩ := ih h.2 r.1
      refine ⟨_, ?_, .cons hP hwalked⟩
      show (walkAll f r.1 ids).bind _ = _
      rw [hrs]
      rfl

theorem nodes_getElem? {id : Nat} (h : id < a.size) : a.nodes[id]? = some (a.get id) := by
  rw [size] at h
  rw [get, Array.getD_eq_getD_getElem?, Array.getElem?_eq_getElem h, Option.getD_some]

/-- **Every walk comes to an end**, if operands have smaller numbers, and goes no deeper than the
number of its node. What a visit makes of results for the operands holds of the whole walk. -/
theorem Backward.walk_induction (ha : a.Backward)
    (visit : σ → Nat → Node → List β → Except ε (σ × β)) (P : Nat → σ → Except ε (σ × β) → Prop)
    (step : ∀ id < a.size, ∀ s rs, Walked P (a.get id).args s rs →
      P id s (rs.bind fun r => visit r.1 id (a.get id) r.2))
    {id depth : Nat} (hid : id < a.size) (hdepth : id < depth) (s : σ) :
    ∃ r, a.walk visit depth s id = some r ∧ P id s r := by
  induction depth generalizing id s with
  | zero => cases hdepth
  | succ depth ih =>
    have hargs : ∀ k ∈ (a.get id).args, ∀ s, ∃ r, a.walk visit depth s k = some r ∧ P k s r := by
      intro k hk
      have hlt := ha id hid k hk
      exact ih (Nat.lt_trans hlt hid) (Nat.lt_of_lt_of_le hlt (Nat.lt_succ_iff.1 hdepth))
    obtain ⟨rs, hrs, hwalked⟩ := exists_walkAll hargs s
    refine ⟨_, ?_, step id hid s rs hwalked⟩
    rw [walk, nodes_getElem? hid]
    show (walkAll (a.walk visit depth) s (a.get id).args).bind _ = _
    rw [hrs]
    rfl

/-- A walk does to the tree of a node what a function `f` on trees does, if `f` on several trees,
`fs`, passes its state along and a visit makes `f` from `fs`. -/
theorem Backward.walk_eq (ha : a.Backward) {visit : σ → Nat → Node → List β → Except ε (σ × β)}
    (f : σ → Expr → Except ε (σ × β)) (fs : σ → List Expr → Except ε (σ × List β))
    (hnil : ∀ s, fs s [] = .ok (s, []))
    (hcons : ∀ s e es, fs s (e :: es)
      = (f s e).bind fun r => (fs r.1 es).map fun rs => (rs.1, r.2 :: rs.2))
    (hvisit : ∀ id < a.size, ∀ s, ((fs s ((a.get id).args.map a.expr)).bind
      fun r => visit r.1 id (a.get id) r.2) = f s (a.expr id))
    {id depth : Nat} (hid : id < a.size) (hdepth : id < depth) (s : σ) :
    a.walk visit depth s id = some (f s (a.expr id)) := by
  have hwalked : ∀ {ids s rs}, Walked (fun id s r => r = f s (a.expr id)) ids s rs →
      rs = fs s (ids.map a.expr) := by
    intro ids s rs h
    induction h with
    | nil => rw [List.map_nil, hnil]
    | fail h =>
      rw [List.map_cons, hcons, ← h]
      rfl
    | cons h hs ih =>
      rw [List.map_cons, hcons, ← h, ih]
      rfl
  have hstep : ∀ id < a.size, ∀ s rs,
      Walked (fun id s r => r = f s (a.expr id)) (a.get id).args s rs →
        (rs.bind fun r => visit r.1 id (a.get id) r.2) = f s (a.expr id) := by
    intro id hid s rs h
    rw [hwalked h, hvisit id hid s]
  obtain ⟨r, hr, rfl⟩ := ha.walk_induction visit _ hstep hid hdepth s
  exact hr

/-! ## Walks that cannot fail -/

/-- A walk whose visits do not fail. -/
def sweep (a : Arena) (visit : σ → Nat → Node → List β → σ × β) (depth : Nat) (s : σ) (id : Nat) :
    Option (σ × β) :=
  (a.walk (ε := Empty) (fun s id n rs => .ok (visit s id n rs)) depth s id).bind Except.toOption

theorem Backward.sweep_eq (ha : a.Backward) {visit : σ → Nat → Node → List β → σ × β}
    (f : σ → Expr → σ × β) (fs : σ → List Expr → σ × List β) (hnil : ∀ s, fs s [] = (s, []))
    (hcons : ∀ s e es,
      fs s (e :: es) = ((fs (f s e).1 es).1, (f s e).2 :: (fs (f s e).1 es).2))
    (hvisit : ∀ id < a.size, ∀ s, visit (fs s ((a.get id).args.map a.expr)).1 id (a.get id)
      (fs s ((a.get id).args.map a.expr)).2 = f s (a.expr id))
    {id depth : Nat} (hid : id < a.size) (hdepth : id < depth) (s : σ) :
    a.sweep visit depth s id = some (f s (a.expr id)) := by
  have hwalk : a.walk (ε := Empty) (fun s id n rs => .ok (visit s id n rs)) depth s id
      = some (.ok (f s (a.expr id))) := by
    refine ha.walk_eq (fun s e => .ok (f s e)) (fun s es => .ok (fs s es)) ?_ ?_ ?_ hid hdepth s
    · exact fun s => congrArg _ (hnil s)
    · exact fun s e es => congrArg _ (hcons s e es)
    · exact fun id hid s => congrArg _ (hvisit id hid s)
  rw [sweep, hwalk]
  rfl

/-! ## Weighing, copying and numbering -/

/-- The number of nodes under a node, each counted as often as it is met. -/
def weight (a : Arena) (depth id : Nat) : Option Nat :=
  (a.sweep (fun _ _ _ ws => ((), ws.foldl (· + ·) 1)) depth () id).map Prod.snd

theorem Backward.weight_eq (ha : a.Backward) {id depth : Nat} (hid : id < a.size)
    (hdepth : id < depth) : a.weight depth id = some (a.expr id).weight := by
  have hsweep : a.sweep (fun _ _ _ ws => ((), ws.foldl (· + ·) 1)) depth () id
      = some ((), (a.expr id).weight) := by
    refine ha.sweep_eq (fun _ e => ((), e.weight)) (fun _ es => ((), es.map Expr.weight))
      (fun _ => rfl) (fun _ _ _ => rfl) ?_ hid hdepth ()
    intro id hid _
    rw [ha.expr_eq hid, Expr.weight, Expr.fold_node]
  rw [weight, hsweep]
  rfl

/-- Store a copy of a node and of all under it in another arena, operands first, with new indices
for loads. -/
def copyInto (a : Arena) (remap : Source → Nat → Nat) (depth : Nat) (dest : Arena) (id : Nat) :
    Option (Arena × Nat) :=
  a.sweep (fun dest _ n ids => dest.push (n.op.mapLoad remap) n.shape ids) depth dest id

theorem Backward.copyInto_eq (ha : a.Backward) (remap : Source → Nat → Nat) (dest : Arena)
    {id depth : Nat} (hid : id < a.size) (hdepth : id < depth) :
    a.copyInto remap depth dest id = some (dest.insert ((a.expr id).mapLoads remap)) := by
  refine ha.sweep_eq (fun dest e => dest.insert (e.mapLoads remap))
    (fun dest es => dest.insertAll (es.map (Expr.mapLoads remap))) ?_ ?_ ?_ hid hdepth dest
  · intro dest
    rw [List.map_nil, insertAll]
  · intro dest e es
    rw [List.map_cons, insertAll]
  · intro id hid dest
    rw [ha.expr_eq hid, Expr.mapLoads_node, insert]

/-- Number a node and all under it, operands first. -/
def number (a : Arena) (stored : List Nat) (stmt depth : Nat) (c : Classes) (id : Nat) :
    Option (Classes × Nat) :=
  a.sweep (fun c id n ids => c.record (Classes.key stored n.op n.shape ids) stmt (a.expr id))
    depth c id

theorem Backward.number_eq (ha : a.Backward) (stored : List Nat) (stmt : Nat) (c : Classes)
    {id depth : Nat} (hid : id < a.size) (hdepth : id < depth) :
    a.number stored stmt depth c id = some (c.visit stored stmt (a.expr id)) := by
  refine ha.sweep_eq (fun c e => c.visit stored stmt e) (fun c es => c.visitAll stored stmt es)
    ?_ ?_ ?_ hid hdepth c
  · intro c
    rw [Classes.visitAll]
  · intro c e es
    rw [Classes.visitAll]
  · intro id hid c
    rw [ha.expr_eq hid, Classes.visit]

/-! ## Rewriting -/

/-- One node of a rewriting, over operands that are in `dest`: a read of the local `fresh` if the
node is an occurrence of class `target`, and the number of the node. -/
def rewriteNode (c : Classes) (target fresh : Nat) (stored : List Nat) (dest : Arena) (n : Node)
    (rs : List (Nat × Option Nat)) : Arena × Nat × Option Nat :=
  let number := (rs.mapM Prod.snd).bind fun ids => c.ids[Classes.key stored n.op n.shape ids]?
  let placed :=
    if number = some target then dest.push (.load .local fresh) n.shape []
    else dest.push n.op n.shape (rs.map Prod.fst)
  (placed.1, placed.2, number)

/-- Store a node and all under it in another arena, with reads of the local `fresh` in place of the
occurrences of class `target`. What is under an occurrence is stored before the occurrence is known
to be one, and stays there unused. -/
def rewrite (a : Arena) (c : Classes) (target fresh : Nat) (stored : List Nat) (depth : Nat)
    (dest : Arena) (id : Nat) : Option (Arena × Nat × Option Nat) :=
  a.sweep (fun dest _ n rs => rewriteNode c target fresh stored dest n rs) depth dest id

/-- What rewriting trees into `dest` gives: the trees with the reads in place, the numbers of the
trees before that, and an arena that is grounded if `dest` is. -/
structure Rewritten (c : Classes) (target fresh : Nat) (stored : List Nat) (n : Nat)
    (es : List Expr) (dest dest' : Arena) (rs : List (Nat × Option Nat)) : Prop where
  stores : dest.Stores dest' (es.map fun e => (c.replace target fresh stored e).1) (rs.map Prod.fst)
  numbers : rs.map Prod.snd = es.map (c.find? stored)
  grounded : dest.Grounded n → dest'.Grounded n

section Rewriting

variable {c : Classes} {target fresh : Nat} {stored : List Nat} {n : Nat}

theorem Rewritten.nil (dest : Arena) : Rewritten c target fresh stored n [] dest dest [] :=
  ⟨.nil dest, rfl, id⟩

theorem Rewritten.cons {e : Expr} {es : List Expr} {dest dest' dest'' : Arena}
    {r : Nat × Option Nat} {rs : List (Nat × Option Nat)}
    (h : Rewritten c target fresh stored n [e] dest dest' [r])
    (hs : Rewritten c target fresh stored n es dest' dest'' rs) :
    Rewritten c target fresh stored n (e :: es) dest dest'' (r :: rs) := by
  refine ⟨h.stores.cons hs.stores, ?_, fun hdest => hs.grounded (h.grounded hdest)⟩
  rw [List.map_cons, List.map_cons, hs.numbers, (List.cons.inj h.numbers).1]

/-- One node over operands that are rewritten. -/
theorem Rewritten.node {m : Node} {args : List Expr} {dest dest' : Arena}
    {rs : List (Nat × Option Nat)} (h : Rewritten c target fresh stored n args dest dest' rs)
    (hop : ∀ f ∈ m.op.callee?, f < n) :
    Rewritten c target fresh stored n [.node m.op m.shape args] dest
      (rewriteNode c target fresh stored dest' m rs).1
      [(rewriteNode c target fresh stored dest' m rs).2] := by
  have hnumbers : rs.mapM Prod.snd = args.mapM (c.find? stored) := by
    calc rs.mapM Prod.snd
        = (rs.map Prod.snd).mapM id := by rw [List.mapM_map]; rfl
      _ = (args.map (c.find? stored)).mapM id := by rw [h.numbers]
      _ = args.mapM (c.find? stored) := by rw [List.mapM_map]; rfl
  rw [rewriteNode, hnumbers, ← Classes.find?_node]
  dsimp only
  by_cases htarget : c.find? stored (.node m.op m.shape args) = some target
  · have hnone : dest.Stores dest' [] [] := ⟨h.stores.grows, by simp, rfl⟩
    have htree : (c.replace target fresh stored (.node m.op m.shape args)).1
        = .node (.load .local fresh) m.shape [] := by
      rw [Classes.replace_fst, Expr.readInstead_node, if_pos (by simpa [Classes.isOccurrence])]
    rw [if_pos htarget]
    refine ⟨?_, rfl, fun hdest => (h.grounded hdest).push _ (by simp) (by simp)⟩
    rw [List.map_singleton, htree]
    exact hnone.push (.load .local fresh) m.shape
  · have htree : (c.replace target fresh stored (.node m.op m.shape args)).1
        = .node m.op m.shape (args.map fun e => (c.replace target fresh stored e).1) := by
      simp only [Classes.replace_fst]
      rw [Expr.readInstead_node, if_neg (by simpa [Classes.isOccurrence])]
    rw [if_neg htarget]
    refine ⟨?_, rfl, fun hdest => (h.grounded hdest).push _ h.stores.lt hop⟩
    rw [List.map_singleton, htree]
    exact h.stores.push m.op m.shape

/-- What rewriting a node into `dest` gives. -/
def Rewrites (a : Arena) (c : Classes) (target fresh : Nat) (stored : List Nat) (n : Nat) (id : Nat)
    (dest : Arena) (r : Except Empty (Arena × Nat × Option Nat)) : Prop :=
  ∃ x, r = .ok x ∧ Rewritten c target fresh stored n [a.expr id] dest x.1 [x.2]

theorem Rewritten.of_walked {ids : List Nat} {dest : Arena}
    {rs : Except Empty (Arena × List (Nat × Option Nat))}
    (h : Walked (a.Rewrites c target fresh stored n) ids dest rs) :
    ∃ xs, rs = .ok xs ∧ Rewritten c target fresh stored n (ids.map a.expr) dest xs.1 xs.2 := by
  induction h with
  | nil => exact ⟨_, rfl, .nil _⟩
  | fail h =>
    obtain ⟨x, hx, -⟩ := h
    cases hx
  | cons h hs ih =>
    obtain ⟨x, hx, hrewritten⟩ := h
    obtain ⟨xs, rfl, hrest⟩ := ih
    obtain rfl := Except.ok.inj hx
    exact ⟨_, rfl, hrewritten.cons hrest⟩

/-- **Rewriting by number** stores what replacing gives, and keeps the arena that it stores in
grounded. -/
theorem Grounded.exists_rewrite (ha : a.Grounded n) (c : Classes) (target fresh : Nat)
    (stored : List Nat) (dest : Arena) {id : Nat} (hid : id < a.size) :
    ∃ dest' r, (∀ depth > id, a.rewrite c target fresh stored depth dest id = some (dest', r))
      ∧ Rewritten c target fresh stored n [a.expr id] dest dest' [r] := by
  -- not by `sweep_eq`: the unused nodes are more than storing the replaced tree gives
  have hstep : ∀ id < a.size, ∀ dest rs,
      Walked (a.Rewrites c target fresh stored n) (a.get id).args dest rs →
        a.Rewrites c target fresh stored n id dest
          (rs.bind fun r => .ok (rewriteNode c target fresh stored r.1 (a.get id) r.2)) := by
    intro id hid dest rs h
    obtain ⟨xs, rfl, hxs⟩ := Rewritten.of_walked h
    refine ⟨_, rfl, ?_⟩
    rw [ha.backward.expr_eq hid]
    exact hxs.node (ha.calls id hid)
  -- the depth that is just enough gives the result for all others
  obtain ⟨r, hr, x, rfl, hx⟩ := ha.backward.walk_induction
    (fun dest _ m rs => .ok (rewriteNode c target fresh stored dest m rs)) _ hstep hid
    (Nat.lt_succ_self id) dest
  refine ⟨x.1, x.2, fun depth hdepth => ?_, hx⟩
  rw [rewrite, sweep, walk_mono _ hdepth hr]
  rfl

end Rewriting

end Arena

/-! ## Lowering -/

theorem Expr.exponents_of_outlines {args args' : List Expr}
    (h : args.map outline = args'.map outline) : args.map exponent? = args'.map exponent? := by
  have hsnd := congrArg (List.map Prod.snd) h
  simp only [List.map_map] at hsnd
  exact hsnd

namespace Run

variable (constants : List Literal) {args args' : List Expr}

theorem exponent_of_outlines (h : args.map Expr.outline = args'.map Expr.outline) :
    exponent constants args = exponent constants args' := by
  rw [exponent, exponent, exponent_congr (Expr.exponents_of_outlines h)]

/-- Of its operands a node sees no more than their outlines. -/
theorem node_congr (callees : List Callee) (f : Frame) (op : Op)
    (h : args.map Expr.outline = args'.map Expr.outline) (results : List (Except RunFault Value)) :
    node constants callees f op args results = node constants callees f op args' results := by
  unfold node
  rw [exponent_of_outlines constants h]

theorem resolveNode_congr (functions : Nat) (op : Op)
    (h : args.map Expr.outline = args'.map Expr.outline) :
    resolveNode constants functions op args = resolveNode constants functions op args' := by
  unfold resolveNode
  rw [exponent_of_outlines constants h]

end Run

namespace Arena

variable {a : Arena}

/-- What a node sees of an operand: its operator and its shape. -/
def head (a : Arena) (id : Nat) : Expr :=
  .node (a.get id).op (a.get id).shape []

theorem Backward.outline_head (ha : a.Backward) {id : Nat} (hid : id < a.size) :
    (a.head id).outline = (a.expr id).outline := by
  rw [ha.expr_eq hid, head, Expr.outline, Expr.outline]
  generalize a.get id = n
  obtain ⟨op, shape, args⟩ := n
  cases op with
  | literal value => cases value <;> rfl
  | load source i => cases source <;> rfl
  | _ => rfl

theorem Backward.outlines_args (ha : a.Backward) {id : Nat} (hid : id < a.size) :
    ((a.get id).args.map a.head).map Expr.outline
      = ((a.get id).args.map a.expr).map Expr.outline := by
  rw [List.map_map, List.map_map]
  refine List.map_congr_left fun k hk => ?_
  exact ha.outline_head (Nat.lt_trans (ha id hid k hk) hid)

/-- Make a function of frames from a node, if all that it and the nodes under it refer to exists. -/
def lower (a : Arena) (constants : List Literal) (callees : List Callee) (depth id : Nat) :
    Option (Except RunFault (Frame → Except RunFault Value)) :=
  (a.walk (fun s _ n fs =>
    (Run.resolveNode constants callees.length n.op (n.args.map a.head)).map fun _ =>
      (s, fun f => Run.node constants callees f n.op (n.args.map a.head) (fs.map (· f))))
    depth () id).map (Except.map Prod.snd)

/-- **Lowering by number** fails where something is missing, and otherwise gives the function that
runs the tree of a node. -/
theorem Backward.lower_eq (ha : a.Backward) (constants : List Literal) (callees : List Callee)
    {i depth : Nat} (hi : i < a.size) (hdepth : i < depth) :
    a.lower constants callees depth i = some
      ((Run.resolve constants callees.length (a.expr i)).map
        fun _ f => Run.expr constants callees f (a.expr i)) := by
  rw [lower, ha.walk_eq
    (fun _ e => (Run.resolve constants callees.length e).map
      fun _ => ((), fun f => Run.expr constants callees f e))
    (fun _ es => ((es.map (Run.resolve constants callees.length)).forM id).map
      fun _ => ((), es.map fun e f => Run.expr constants callees f e)) ?_ ?_ ?_ hi hdepth ()]
  · cases Run.resolve constants callees.length (a.expr i) <;> rfl
  · exact fun _ => rfl
  · intro _ e es
    show (Run.resolve constants callees.length e >>= fun _ =>
      (es.map (Run.resolve constants callees.length)).forM id).map _ = _
    cases Run.resolve constants callees.length e with
    | error e => rfl
    | ok _ => cases (es.map (Run.resolve constants callees.length)).forM id <;> rfl
  · intro i hi _
    -- operands are seen by their heads, which is enough for an exponent
    have hargs := ha.outlines_args hi
    have hresolve := Run.resolveNode_congr constants callees.length (a.get i).op hargs
    have hrun := fun f => Run.node_congr constants callees f (a.get i).op hargs
    rw [ha.expr_eq hi, Run.resolve, Expr.fold_node, ← Run.resolve]
    simp only [hresolve, hrun, Run.expr, Expr.fold_node]
    generalize (a.get i).args.map a.expr = args
    cases (args.map (Run.resolve constants callees.length)).forM id with
    | error e => rfl
    | ok _ =>
      show Except.map _ (Run.resolveNode ..) = Except.map _ (Run.resolveNode ..)
      simp only [List.map_map, Function.comp_def]

/-! ## All walks -/

/-- All walks have a result from every node, and it is what the tree of the node gives. They go no
deeper than the number of the node. The nodes that they make call the first `n` functions, if those
that were there do. -/
structure Traversed (n : Nat) (a : Arena) : Prop where
  walk : ∀ {σ β ε : Type} (visit : σ → Nat → Node → List β → Except ε (σ × β)) (s : σ),
    ∀ id < a.size, ∃ r, ∀ depth > id, a.walk visit depth s id = some r
  weight : ∀ id < a.size, ∀ depth > id, a.weight depth id = some (a.expr id).weight
  copyInto : ∀ remap dest, ∀ id < a.size,
    (∀ depth > id,
      a.copyInto remap depth dest id = some (dest.insert ((a.expr id).mapLoads remap)))
      ∧ (dest.Grounded n → (dest.insert ((a.expr id).mapLoads remap)).1.Grounded n)
  number : ∀ stored stmt c, ∀ id < a.size, ∀ depth > id,
    a.number stored stmt depth c id = some (c.visit stored stmt (a.expr id))
  rewrite : ∀ c target fresh stored dest, ∀ id < a.size,
    ∃ dest' r, (∀ depth > id, a.rewrite c target fresh stored depth dest id = some (dest', r))
      ∧ Rewritten c target fresh stored n [a.expr id] dest dest' [r]
  lower : ∀ constants callees, ∀ id < a.size, ∀ depth > id,
    a.lower constants callees depth id = some
      ((Run.resolve constants callees.length (a.expr id)).map
        fun _ f => Run.expr constants callees f (a.expr id))

/-- **Every walk over a grounded arena comes to an end.** -/
theorem Grounded.traversed {n : Nat} (ha : a.Grounded n) : a.Traversed n where
  walk visit s id hid := by
    obtain ⟨r, hr, -⟩ := ha.backward.walk_induction visit (fun _ _ _ => True)
      (fun _ _ _ _ _ => trivial) hid (Nat.lt_succ_self id) s
    exact ⟨r, fun depth hdepth => walk_mono visit hdepth hr⟩
  weight id hid depth hdepth := ha.backward.weight_eq hid hdepth
  copyInto remap dest id hid :=
    ⟨fun depth hdepth => ha.backward.copyInto_eq remap dest hid hdepth,
      fun hdest => hdest.insert ((ha.expr hid).mapLoads remap)⟩
  number stored stmt c id hid depth hdepth := ha.backward.number_eq stored stmt c hid hdepth
  rewrite c target fresh stored dest id hid := ha.exists_rewrite c target fresh stored dest hid
  lower constants callees id hid depth hdepth := ha.backward.lower_eq constants callees hid hdepth

end Arena

end Arithmetization
