import Arithmetization.Proofs.Formulas

/-!
Runs as values of formulas.

What a run computes are the values of the formulas of the body, wherever it succeeds
(`Formula.body_agrees`); a run may still stop, at a division by zero. Sharing leaves the formulas of
a body as they are (`Formula.body_share_refines`), so formulas read from a source speak of the
machine that is made of it.
-/

set_option autoImplicit false

namespace Arithmetization

/-- The elements of a list that were computed one by one. -/
theorem mapM_eq_map {ε α β : Type} {f : α → Except ε β} {g : α → β}
    (hfg : ∀ x y, f x = .ok y → y = g x) {xs : List α} {ys : List β} (h : xs.mapM f = .ok ys) :
    ys = xs.map g := by
  rw [mapM_eq_ok] at h
  induction h with
  | nil => rfl
  | cons hx _ ih => rw [List.map_cons, hfg _ _ hx, ih]

/-- The elements of a tensor that were computed one by one. -/
theorem Tensor.mapM_eq_map {ε α β : Type} {f : α → Except ε β} {g : α → β}
    (hfg : ∀ x y, f x = .ok y → y = g x) {t : Tensor α} {u : Tensor β} (h : t.mapM f = .ok u) :
    u = t.map g := by
  cases t with
  | scalar x =>
    obtain ⟨y, hy, rfl⟩ := map_eq_ok.1 h
    exact congrArg _ (hfg x y hy)
  | vector xs =>
    obtain ⟨ys, hys, rfl⟩ := map_eq_ok.1 h
    exact congrArg _ (Arithmetization.mapM_eq_map hfg hys)
  | matrix rows =>
    obtain ⟨yss, hyss, rfl⟩ := map_eq_ok.1 h
    exact congrArg _
      (Arithmetization.mapM_eq_map (fun _ _ hrow => Arithmetization.mapM_eq_map hfg hrow) hyss)

/-- The exponent that a run looks up. -/
theorem Run.value?_of_exponent {constants : List Literal} {args : List Expr} {n : Nat}
    (h : Run.exponent constants args = .ok n) :
    (args[1]?.bind Expr.exponent?).bind (·.value? constants) = some n := by
  unfold Run.exponent at h
  generalize args[1]?.bind Expr.exponent? = above at h ⊢
  rcases above with _ | (k | i)
  · cases h
  · exact congrArg some (Except.ok.inj h)
  · rw [Option.bind_some, Expr.Exponent.value?]
    dsimp only at h
    cases hc : constants[i]? with
    | none =>
      rw [hc] at h
      cases h
    | some c =>
      rw [hc] at h
      rw [Option.bind_some]
      dsimp only at h
      cases hk : c.scalar? with
      | none =>
        rw [hk] at h
        cases h
      | some k =>
        rw [hk] at h
        exact congrArg some (Except.ok.inj h)

namespace Formula

variable {x : Place → Element}

/-! ## Operations -/

/-- An outcome that is the values of formulas, if it is a success. -/
def Agrees (x : Place → Element) (t : Tensor Formula) (r : Except RunFault Value) : Prop :=
  ∀ v, r = .ok v → v = t.map (value x)

theorem Agrees.ok (t : Tensor Formula) : Agrees x t (.ok (t.map (value x))) :=
  fun _ h => (Except.ok.inj h).symm

theorem Agrees.error (t : Tensor Formula) (fault : RunFault) : Agrees x t (.error fault) :=
  fun _ h => (by cases h)

/-- A step after an outcome goes on from the values of formulas. -/
theorem Agrees.bind {t u : Tensor Formula} {r : Except RunFault Value}
    {f : Value → Except RunFault Value} (h : Agrees x t r) (hf : Agrees x u (f (t.map (value x)))) :
    Agrees x u (r >>= f) := by
  intro v hv
  obtain ⟨w, hw, hv⟩ := bind_eq_ok.1 hv
  rw [h w hw] at hv
  exact hf v hv

theorem value_of_inverse {a y : Element} (h : Value.inverse a = .ok y) : y = a.inv := by
  unfold Value.inverse at h
  split at h
  · cases h
  · exact (Except.ok.inj h).symm

/-- Values are combined where formulas are. -/
theorem zipWith_agrees {f : Formula → Formula → Formula}
    {g : Element → Element → Except RunFault Element}
    (hfg : ∀ a b y, g (a.value x) (b.value x) = .ok y → y = (f a b).value x)
    {t u w : Tensor Formula} (h : zipWith f t u = .ok w) :
    Agrees x w (Value.zipWith g (t.map (value x)) (u.map (value x))) := by
  intro v hv
  unfold zipWith at h
  unfold Value.zipWith at hv
  rw [Tensor.sameRows_map, Tensor.align_map] at hv
  cases hp : Tensor.align t u with
  | none =>
    rw [hp] at h
    cases h
  | some p =>
    rw [hp] at h hv
    obtain rfl := Except.ok.inj h
    -- rows that do not match are a fault of the run alone
    by_cases hrows : Tensor.sameRows t u = true
    · rw [if_pos hrows, Option.map_some] at hv
      dsimp only at hv
      rw [Tensor.mapM_map] at hv
      rw [Tensor.map_map]
      exact Tensor.mapM_eq_map (fun ab y hy => hfg ab.1 ab.2 y hy) hv
    · rw [if_neg hrows] at hv
      cases hv

/-- Values are combined by an operation that never fails. -/
theorem zipWith_agrees_ok {f : Formula → Formula → Formula} {g : Element → Element → Element}
    (hfg : ∀ a b, (f a b).value x = g (a.value x) (b.value x)) {t u w : Tensor Formula}
    (h : zipWith f t u = .ok w) :
    Agrees x w (Value.zipWith (fun a b => .ok (g a b)) (t.map (value x)) (u.map (value x))) := by
  refine zipWith_agrees (fun a b y hy => ?_) h
  rw [hfg]
  exact (Except.ok.inj hy).symm

theorem value_dot (as bs : List Formula) :
    (dot as bs).value x = Value.dot (as.map (value x)) (bs.map (value x)) := by
  have hstep : ∀ (pairs : List (Formula × Formula)) (acc : Formula),
      (pairs.foldl (fun acc ab => .add acc (.mul ab.1 ab.2)) acc).value x
        = (pairs.map (Prod.map (value x) (value x))).foldl (fun acc ab => acc + ab.1 * ab.2)
          (acc.value x) := by
    intro pairs
    induction pairs with
    | nil => exact fun acc => rfl
    | cons ab pairs ih =>
      intro acc
      rw [List.foldl_cons, ih]
      rfl
  rw [dot_eq, hstep, Value.dot, ← List.zip_map]
  rfl

theorem product_agrees {t u w : Tensor Formula} (h : product t u = .ok w) :
    Agrees x w (Value.prod (t.map (value x)) (u.map (value x))) := by
  intro v hv
  cases t with
  | scalar a => cases h
  | vector as =>
    cases u with
    | scalar b => cases h
    | matrix rows => cases h
    | vector bs =>
      obtain rfl := Except.ok.inj h
      simp only [Tensor.map, Value.prod] at hv
      split at hv
      · obtain rfl := Except.ok.inj hv
        rw [Tensor.map, value_dot]
      · cases hv
  | matrix rows =>
    cases u with
    | scalar b => cases h
    | vector bs =>
      obtain rfl := Except.ok.inj h
      simp only [Tensor.map, Value.prod] at hv
      split at hv
      · obtain rfl := Except.ok.inj hv
        simp only [Tensor.map, List.map_map, Function.comp_def, value_dot]
      · cases hv
    | matrix cols =>
      obtain rfl := Except.ok.inj h
      have hwidth : ((cols.map (·.map (value x))).head?.map List.length).getD 0
          = (cols.head?.map List.length).getD 0 := by
        cases cols <;> simp
      -- an entry that is missing is the number zero
      have hentry (row : List Formula) (j : Nat) : Value.dot (row.map (value x))
          (cols.map fun col => (col.map (value x)).getD j 0)
            = (dot row (cols.map (·.getD j (.number 0)))).value x := by
        rw [value_dot, List.map_map]
        congr 1
        refine List.map_congr_left fun col _ => ?_
        exact List.getD_map (l := col) (n := j) (d := .number 0) (value x)
      simp only [Tensor.map, Value.prod] at hv
      split at hv
      · obtain rfl := Except.ok.inj hv
        simp only [Tensor.map, List.map_map, Function.comp_def, hwidth, hentry]
      · cases hv

/-- Parts of a vector, one after the other. -/
theorem concat_agrees (ts : List (Tensor Formula)) :
    Agrees x (.vector (ts.flatMap Tensor.elements))
      (Value.concat (ts.map (·.map (value x)))) := by
  intro v hv
  obtain ⟨parts, hparts, hv⟩ := bind_eq_ok.1 hv
  obtain rfl := Except.ok.inj hv
  rw [List.mapM_map] at hparts
  have hpart : ∀ (t : Tensor Formula) (part : List Element),
      Value.part (t.map (value x)) = .ok part → part = t.elements.map (value x) := by
    intro t part h
    cases t with
    | matrix rows => cases h
    | _ => exact (Except.ok.inj h).symm
  rw [mapM_eq_map hpart hparts, Tensor.map, List.map_flatMap, List.flatMap_def]

/-- Operands that agree, one by one. -/
theorem operands_agree {ts : List (Tensor Formula)} {rs : List (Except RunFault Value)}
    (h : List.Forall₂ (Agrees x) ts rs) {vs : List Value} (hvs : rs.mapM id = .ok vs) :
    vs = ts.map (·.map (value x)) := by
  rw [mapM_eq_ok] at hvs
  induction h generalizing vs with
  | nil =>
    cases hvs
    rfl
  | cons hr _ ih =>
    obtain _ | ⟨hv, hvs⟩ := hvs
    rw [List.map_cons, hr _ hv, ih hvs]

/-- The elements of operands that have to be scalars. -/
theorem scalars_agree {ts : List (Tensor Formula)} {rs : List (Except RunFault Value)}
    (h : List.Forall₂ (Agrees x) ts rs) {ys : List Element}
    (hys : rs.mapM (fun r => r >>= Value.asScalar) = .ok ys) :
    ys = (ts.flatMap Tensor.elements).map (value x) := by
  rw [mapM_eq_ok] at hys
  induction h generalizing ys with
  | nil =>
    cases hys
    rfl
  | @cons t r ts rs hr _ ih =>
    obtain _ | ⟨hy, hys⟩ := hys
    obtain ⟨v, hv, hy⟩ := bind_eq_ok.1 hy
    obtain rfl := hr v hv
    rw [List.flatMap_cons, List.map_append, ih hys]
    cases t with
    | scalar a =>
      obtain rfl := Except.ok.inj hy
      rfl
    | vector as => cases hy
    | matrix rows => cases hy

/-! ## Nodes -/

/-- What a run loads are the values of what formulas are read from. -/
structure Reads (Γ : Env) (callees : List Callee) (runs : List Arithmetization.Callee)
    (rows : List (List Element)) (statics : List Element) (x : Place → Element) : Prop where
  trace : ∀ {i s row}, Γ.load .trace i = some s → rows[i]? = some row →
    row = (Place.row s.rows i).map x
  static : ∀ {i s}, Γ.load .static i = some s → statics = (Place.statics s.rows).map x
  call : ∀ {f : Nat} {c : Callee} {run : Arithmetization.Callee}, callees[f]? = some c →
    runs[f]? = some run → ∀ {ts : List (Tensor Formula)} {t : Tensor Formula}, c ts = .ok t →
      Agrees x t (run (ts.map (·.map (value x))))

variable {Γ : Env} {cs : List Callee} {params : List (Tensor Formula)}
  {runs : List Arithmetization.Callee} {rows : List (List Element)} {statics : List Element}

theorem Reads.load (h : Reads Γ cs runs rows statics x) {source : Source} {i : Nat}
    {shape : Shape} (hsource : (Op.load source i).local? = none)
    (hload : Γ.load source i = some shape) {args : List Expr} {ts : List (Tensor Formula)}
    {t : Tensor Formula} (ht : node Γ.constants cs params (.load source i) shape args ts = .ok t) :
    Agrees x t
      (Run.load Γ.constants ⟨rows, statics, params.map (·.map (value x)), []⟩ source i) := by
  cases source with
  | «local» => cases hsource
  | const =>
    obtain ⟨c, hc, rfl⟩ := Option.map_eq_some_iff.1 hload
    simp only [node, hc] at ht
    obtain rfl := Except.ok.inj ht
    simp only [Run.load, hc]
    have hok := Agrees.ok (x := x) (c.map .number)
    rwa [Tensor.map_map] at hok
  | trace =>
    obtain rfl := Except.ok.inj ht
    simp only [Run.load]
    cases hrow : rows[i]? with
    | none => exact Agrees.error _ _
    | some row =>
      rw [h.trace hload hrow]
      have hok := Agrees.ok (x := x) (.vector ((Place.row shape.rows i).map .place))
      rwa [Tensor.map, List.map_map] at hok
  | static =>
    obtain rfl := Except.ok.inj ht
    have hok := Agrees.ok (x := x) (.vector ((Place.statics shape.rows).map .place))
    rw [Tensor.map, List.map_map] at hok
    simp only [Run.load]
    rw [h.static hload]
    exact hok
  | param =>
    simp only [Run.load, List.getElem?_map]
    cases hi : params[i]? with
    | none => exact Agrees.error _ _
    | some p =>
      simp only [node, hi] at ht
      obtain rfl := Except.ok.inj ht
      exact Agrees.ok p

/-- The registers `first` to `last` of a trace row. -/
theorem Reads.segment (h : Reads Γ cs runs rows statics x) {row first last : Nat} {s : Shape}
    (hload : Γ.load .trace row = some s) (values : List Value) :
    Agrees x (.vector ((List.range' first (last + 1 - first)).map fun c => .place (.trace row c)))
      (Run.segment ⟨rows, statics, values, []⟩ row first last) := by
  unfold Run.segment
  cases hrow : rows[row]? with
  | none => exact Agrees.error _ _
  | some xs =>
    obtain rfl := h.trace hload hrow
    unfold Value.segment?
    by_cases hbounds : first ≤ last ∧ last < ((Place.row s.rows row).map x).length
    · simp only [if_pos hbounds]
      intro v hv
      obtain rfl := Except.ok.inj hv
      have hlast : last < s.rows := by simpa [Place.row] using hbounds.2
      -- cutting a row out of all its places leaves the places in between
      have hrange : ((List.range s.rows).drop first).take (last + 1 - first)
          = List.range' first (last + 1 - first) := by
        rw [List.range_eq_range', List.drop_range', List.take_range'_of_length_ge (by omega)]
        congr 1
        omega
      rw [Place.row, List.map_map, ← List.map_drop, ← List.map_take, hrange, Tensor.map,
        List.map_map]
      rfl
    · simp only [if_neg hbounds]
      exact Agrees.error _ _

theorem binary_agrees {op : BinaryOp} (hop : op ≠ .exp) {shape : Shape} {args : List Expr}
    {t u w : Tensor Formula}
    (h : node Γ.constants cs params (.binary op) shape args [t, u] = .ok w) :
    Agrees x w (Run.binary op (t.map (value x)) (u.map (value x))) := by
  cases op with
  | add =>
    have hzip : zipWith .add t u = .ok w := h
    rw [Run.binary, Value.add]
    exact zipWith_agrees_ok (value_add x) hzip
  | sub =>
    have hzip : zipWith .sub t u = .ok w := h
    rw [Run.binary, Value.sub]
    exact zipWith_agrees_ok (value_sub x) hzip
  | mul =>
    have hzip : zipWith .mul t u = .ok w := h
    rw [Run.binary, Value.mul]
    exact zipWith_agrees_ok (value_mul x) hzip
  | div =>
    have hzip : zipWith .div t u = .ok w := h
    rw [Run.binary, Value.div]
    refine zipWith_agrees (fun a b y hy => ?_) hzip
    obtain ⟨z, hz, hy⟩ := bind_eq_ok.1 hy
    rw [value_div, ← value_of_inverse hz]
    exact (Except.ok.inj hy).symm
  | prod => exact product_agrees h
  | exp => exact absurd rfl hop

theorem unary_agrees {op : UnaryOp} {shape : Shape} {args : List Expr} {t w : Tensor Formula}
    (h : node Γ.constants cs params (.unary op) shape args [t] = .ok w) :
    Agrees x w (Run.unary op (t.map (value x))) := by
  cases op with
  | neg =>
    obtain rfl := Except.ok.inj h
    intro v hv
    obtain rfl := Except.ok.inj hv
    rw [Value.neg, Tensor.map_map, Tensor.map_map]
    rfl
  | inv =>
    obtain rfl := Except.ok.inj h
    intro v hv
    have hinv : (t.map (value x)).mapM Value.inverse = .ok v := hv
    rw [Tensor.mapM_map] at hinv
    rw [Tensor.map_map]
    exact Tensor.mapM_eq_map (fun _ _ => value_of_inverse) hinv

theorem get_agrees {t : Tensor Formula} {i : Nat} {shape : Shape} {args : List Expr}
    {w : Tensor Formula} (h : node Γ.constants cs params (.get i) shape args [t] = .ok w) :
    Agrees x w (Value.get (t.map (value x)) i) := by
  cases t with
  | scalar a => cases h
  | matrix rows => cases h
  | vector as =>
    obtain rfl := Except.ok.inj h
    simp only [Tensor.map, Value.get, List.getElem?_map]
    -- an element that is missing is a fault of the run alone
    cases ha : as[i]? with
    | none => exact Agrees.error _ _
    | some a =>
      have hok := Agrees.ok (x := x) (.scalar a)
      rwa [List.getD_eq_getElem?_getD, ha]

theorem slice_agrees {t : Tensor Formula} {first last : Nat} {shape : Shape} {args : List Expr}
    {w : Tensor Formula}
    (h : node Γ.constants cs params (.slice first last) shape args [t] = .ok w) :
    Agrees x w (Value.slice (t.map (value x)) first last) := by
  cases t with
  | scalar a => cases h
  | matrix rows => cases h
  | vector as =>
    obtain rfl := Except.ok.inj h
    simp only [Tensor.map, Value.slice, Value.segment?]
    by_cases hbounds : first ≤ last ∧ last < (as.map (value x)).length
    · have hok := Agrees.ok (x := x) (.vector ((as.drop first).take (last + 1 - first)))
      simp only [if_pos hbounds]
      rwa [Tensor.map, List.map_take, List.map_drop] at hok
    · simp only [if_neg hbounds]
      exact Agrees.error _ _

theorem binary_node_agrees {op : BinaryOp} {shape : Shape} {args : List Expr}
    {t u w : Tensor Formula} {r r' : Except RunFault Value}
    (hr : Agrees x t r) (hr' : Agrees x u r')
    (h : node Γ.constants cs params (.binary op) shape args [t, u] = .ok w) (frame : Frame) :
    Agrees x w (Run.node Γ.constants runs frame (.binary op) args [r, r']) := by
  by_cases hexp : op = .exp
  · subst hexp
    intro v hv
    obtain ⟨n, hn, hv⟩ := bind_eq_ok.1 hv
    obtain ⟨a, ha, hv⟩ := bind_eq_ok.1 hv
    obtain rfl := Except.ok.inj hv
    simp only [Formula.node, Run.value?_of_exponent hn] at h
    obtain rfl := Except.ok.inj h
    rw [hr a ha, Value.pow, Tensor.map_map, Tensor.map_map]
    rfl
  · rw [Run.node_binary hexp]
    exact hr.bind (hr'.bind (binary_agrees hexp h))

/-- **Every node.** A run computes the values of the formulas of a node. -/
theorem Reads.node (h : Reads Γ cs runs rows statics x) {op : Op} {args : List Expr} {shape : Shape}
    {shapes : List Shape} (hop : op.local? = none) (hrule : Γ.rule op args shapes = some shape)
    {ts : List (Tensor Formula)} {t : Tensor Formula}
    (ht : Formula.node Γ.constants cs params op shape args ts = .ok t)
    {rs : List (Except RunFault Value)} (hrs : List.Forall₂ (Agrees x) ts rs) :
    Agrees x t
      (Run.node Γ.constants runs ⟨rows, statics, params.map (·.map (value x)), []⟩ op args rs) := by
  cases op with
  | literal value =>
    obtain rfl := Except.ok.inj ht
    have hok := Agrees.ok (x := x) (value.map .number)
    rwa [Tensor.map_map] at hok
  | load source i => exact h.load hop (Env.rule_load.1 hrule).2 ht
  | segment row first last =>
    obtain ⟨-, s, hload, -⟩ := Env.rule_segment.1 hrule
    obtain rfl := Except.ok.inj ht
    exact h.segment hload _
  | binary op =>
    -- there are no formulas for another number of operands than two
    rcases hrs with _ | @⟨a, r, _, _, hr, _ | @⟨b, r', _, _, hr', _ | ⟨-, -⟩⟩⟩
    · cases op <;> cases ht
    · cases op <;> cases ht
    · exact binary_node_agrees hr hr' ht _
    · cases op <;> cases ht
  | unary op =>
    rcases hrs with _ | @⟨a, r, _, _, hr, _ | ⟨-, -⟩⟩
    · cases op <;> cases ht
    · exact hr.bind (unary_agrees ht)
    · cases op <;> cases ht
  | vector =>
    obtain rfl := Except.ok.inj ht
    intro v hv
    obtain ⟨vs, hvs, hv⟩ := bind_eq_ok.1 hv
    rw [operands_agree hrs hvs] at hv
    exact concat_agrees ts v hv
  | matrix widths =>
    obtain rfl := Except.ok.inj ht
    intro v hv
    obtain ⟨ys, hys, hv⟩ := bind_eq_ok.1 hv
    obtain rfl := Except.ok.inj hv
    rw [scalars_agree hrs hys, Tensor.chunks_map]
    rfl
  | get i =>
    rcases hrs with _ | @⟨a, r, _, _, hr, _ | ⟨-, -⟩⟩
    · cases ht
    · exact hr.bind (get_agrees ht)
    · cases a <;> cases ht
  | slice first last =>
    rcases hrs with _ | @⟨a, r, _, _, hr, _ | ⟨-, -⟩⟩
    · cases ht
    · exact hr.bind (slice_agrees ht)
    · cases a <;> cases ht
  | call f =>
    intro v hv
    obtain ⟨vs, hvs, hv⟩ := bind_eq_ok.1 hv
    rw [operands_agree hrs hvs] at hv
    simp only [Formula.node] at ht
    cases hc : cs[f]? with
    | none =>
      rw [hc] at ht
      cases ht
    | some c =>
      rw [hc] at ht
      cases hrun : runs[f]? with
      | none =>
        rw [hrun] at hv
        cases hv
      | some run =>
        rw [hrun] at hv
        exact h.call hc hrun ht v hv

/-! ## Blocks and functions -/

/-- **A run of a block computes the values of its formulas.** -/
theorem Reads.block (h : Reads Γ cs runs rows statics x) {b : Block} {s : Shape}
    (hb : b.Checks Γ s) {t : Tensor Formula}
    (ht : (evaluator Γ.constants cs params).block b = .ok t) :
    Agrees x t
      (Run.block Γ.constants runs rows statics (params.map (·.map (value x))) b) := by
  rw [Run.block_eq]
  have habs : Evaluator.Abstracts (Expr.Ruled Γ) (fun _ : RunFault => True)
      (fun (t : Tensor Formula) (v : Unit → Value) => v () = t.map (value x))
      (evaluator Γ.constants cs params)
      (fun _ => Run.evaluator Γ.constants runs rows statics (params.map (·.map (value x)))) := by
    intro op shape args t r gs hop hruled hnode hargs
    obtain ⟨shapes, hrule⟩ := hruled hop
    obtain ⟨ts, hts, ht⟩ := bind_eq_ok.1 hnode
    rw [mapM_eq_ok, List.forall₂_map_left_iff] at hts
    -- an operand that succeeds has the values of its formulas
    have hrs : List.Forall₂ (Agrees x) ts (args.map (gs · ())) := by
      rw [List.forall₂_map_right_iff]
      have hmem := (List.forall₂_and_left args ts).2 ⟨fun a ha => ha, hts⟩
      refine (hmem.imp fun a t ⟨ha, hat⟩ v hv => ?_).flip
      rcases hargs a ha t hat with ⟨w, hw, hok⟩ | ⟨fault, -, herror⟩
      · rw [hok ()] at hv
        obtain rfl := Except.ok.inj hv
        exact hw
      · rw [herror ()] at hv
        cases hv
    have hagrees := h.node hop hrule ht hrs
    cases hrun : Run.node Γ.constants runs ⟨rows, statics, params.map (·.map (value x)), []⟩ op args
        (args.map (gs · ())) with
    | error fault => exact .inr ⟨fault, trivial, fun _ => hrun⟩
    | ok v => exact .inl ⟨fun _ => v, hagrees v hrun, fun _ => hrun⟩
  intro v hv
  rcases habs.block hb.ruled ht with ⟨w, hw, hok⟩ | ⟨fault, -, herror⟩
  · obtain rfl := Except.ok.inj ((hok ()).symm.trans hv)
    exact hw
  · cases (herror ()).symm.trans hv

/-- **Functions compute the values of their formulas.** -/
theorem callees_agree {constants : List Literal} {functions : List Function}
    (hfunctions : FunctionsCheck constants functions) {f : Nat} {c : Callee}
    {run : Arithmetization.Callee} (hc : (callees constants functions)[f]? = some c)
    (hrun : (Run.callees constants (functions.map (·.body.block)))[f]? = some run)
    {ts : List (Tensor Formula)} {t : Tensor Formula} (ht : c ts = .ok t) :
    Agrees x t (run (ts.map (·.map (value x)))) := by
  -- a function calls only those before it
  induction f using Nat.strong_induction_on generalizing c run ts t with
  | _ f ih =>
    have hlt : f < functions.length := by
      have hlt := (List.getElem?_eq_some_iff.1 hc).1
      rwa [callees, length_grow] at hlt
    have hg : functions[f]? = some functions[f] := List.getElem?_eq_getElem hlt
    have hblock : (functions.map (·.body.block))[f]? = some functions[f].body.block := by
      rw [List.getElem?_map, hg, Option.map_some]
    rw [callees, getElem?_grow _ hg] at hc
    obtain rfl := Option.some.inj hc
    rw [Run.callees_eq, getElem?_grow _ hblock] at hrun
    obtain rfl := Option.some.inj hrun
    refine Reads.block (Γ := ⟨constants, (functions.take f).map Function.signature,
      .function functions[f].params, .trap⟩) ⟨?_, ?_, ?_⟩ (hfunctions f _ hg) ht
    · exact fun h => (by cases h)
    · exact fun h => (by cases h)
    · intro k c run hc hrun ts t ht
      have hk : k < f := by
        have hlt := (List.getElem?_eq_some_iff.1 hc).1
        rw [length_grow, List.length_take] at hlt
        omega
      rw [getElem?_grow_take _ hk] at hc hrun
      rw [← Run.callees_eq] at hrun
      exact ih k hk hc hrun ht

/-- **A run of a procedure computes the values of its formulas.** -/
theorem body_agrees {constants : List Literal} {functions : List Function}
    (hfunctions : FunctionsCheck constants functions) {span width : Nat} {registers : RegisterSet}
    {b : Body} {s : Shape}
    (hb : b.block.Checks ⟨constants, functions.map Function.signature,
      .procedure span width registers.row?, .trap⟩ s) {t : Tensor Formula}
    (ht : body constants functions b = .ok t) {rows : List (List Element)}
    (hrows : ∀ row ∈ rows, row.length = width) {statics : List Element}
    (hstatics : statics.length = registers.size) :
    Agrees (Place.assign rows statics) t
      (Run.block constants (Run.callees constants (functions.map (·.body.block))) rows statics []
        b.block) := by
  refine Reads.block ⟨?_, ?_, ?_⟩ hb ht
  · intro i u row hu hrow
    obtain ⟨-, rfl⟩ := Env.load_trace hu
    have hmap := congrArg (·[i]?) (Place.map_row_assign hrows statics)
    have hi := (List.getElem?_eq_some_iff.1 hrow).1
    rw [List.getElem?_map, List.getElem?_range hi, Option.map_some, hrow] at hmap
    exact (Option.some.inj hmap).symm
  · intro i u hu
    obtain ⟨-, rfl⟩ := Env.load_static hu
    have hmap := Place.map_statics_assign rows statics
    rw [hstatics] at hmap
    exact hmap.symm
  · intro f c run hc hrun ts t ht
    exact callees_agree hfunctions hc hrun ht

/-! ## Sharing -/

variable {constants : List Literal}

/-- Reading with better callees is better. -/
theorem simulates {cs cs' : List Callee} (h : CalleesRefine cs cs')
    (params : List (Tensor Formula)) :
    Evaluator.Simulates (evaluator constants cs params) (evaluator constants cs' params) := by
  intro op shape args args' rs rs' hop hexp hrs
  refine Refines.bind (Refines.mapM hrs) fun ts => ?_
  have hexponent := exponent_congr hexp
  intro t ht
  -- but for the exponent and the callees, both sides are one expression
  cases op with
  | binary op =>
    cases op <;> rcases ts with _ | ⟨a, _ | ⟨b, _ | ⟨c, ts⟩⟩⟩ <;>
      simp only [node, hexponent] at ht ⊢ <;> exact ht
  | unary op => cases op <;> rcases ts with _ | ⟨a, _ | ⟨b, ts⟩⟩ <;> exact ht
  | call f =>
    simp only [node] at ht ⊢
    cases hc : cs[f]? with
    | none =>
      rw [hc] at ht
      cases ht
    | some c =>
      obtain ⟨c', hc', hrefines⟩ := h.get? hc
      rw [hc] at ht
      rw [hc']
      exact hrefines ts t ht
  | get i => rcases ts with _ | ⟨_ | _ | _, _ | ⟨b, ts⟩⟩ <;> exact ht
  | slice first last => rcases ts with _ | ⟨_ | _ | _, _ | ⟨b, ts⟩⟩ <;> exact ht
  | load source i => cases source <;> exact ht
  | _ => exact ht

/-- Reading fails when an operand fails. -/
theorem strict (cs : List Callee) (params : List (Tensor Formula)) :
    (evaluator constants cs params).Strict := by
  intro op shape args t r _ hok a ha _
  obtain ⟨ts, hts, -⟩ := bind_eq_ok.1 hok
  obtain ⟨u, -, hu⟩ := ok_of_mem_of_mapM hts (List.mem_map_of_mem ha)
  exact ⟨u, hu⟩

theorem share_refines {cs cs' : List Callee} (h : CalleesRefine cs cs')
    (params : List (Tensor Formula)) {b : Body} (hb : b.block.Formed) (options : SharingOptions) :
    Refines ((evaluator constants cs params).block b.block)
      ((evaluator constants cs' params).block (b.share options).block) :=
  Evaluator.share_body_refines (simulates h params) (simulates (.refl _) params) (strict cs' params)
    hb options

/-- Functions have the formulas that they had before their bodies were shared. -/
theorem callees_share_refines {functions : List Function}
    (h : FunctionsCheck constants functions) (options : SharingOptions) :
    CalleesRefine (callees constants functions)
      (callees constants (functions.map (Function.share options))) := by
  induction functions using List.reverseRecOn with
  | nil => exact .nil
  | append_singleton functions f ih =>
    simp only [callees, List.map_append, List.map_singleton, grow_append]
    refine List.rel_append (ih h.init) (.cons (fun args => ?_) .nil)
    exact share_refines (ih h.init) args h.last.formed options

/-- **Sharing keeps formulas.** -/
theorem body_share_refines {functions : List Function} (h : FunctionsCheck constants functions)
    {b : Body} (hb : b.block.Formed) (options : SharingOptions) :
    Refines (body constants functions b)
      (body constants (functions.map (Function.share options)) (b.share options)) :=
  share_refines (callees_share_refines h options) [] hb options

end Formula

end Arithmetization
