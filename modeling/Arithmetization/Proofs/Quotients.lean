import Arithmetization.Proofs.Composition
import Arithmetization.Proofs.FormulaValues

/-!
Constraints that divide.

A division by something that depends on a register is charged a degree, by default the greatest
that a constraint may have. The charge stays in every sum and every product that the quotient goes
into, and each further factor adds its own degree (`Formula.Divides.le_degree`). So a constraint in
which a quotient stands beside a factor that is not constant is refused, and constraints below the
charge are polynomials (`Formula.isPolynomial_of_degree_lt`). In between lies the quotient by
itself: its degree is the limit and not over it, so it is accepted (`Schema.dividing_constraints`,
`Schema.dividing_constraints_reciprocal`).
-/

set_option autoImplicit false

namespace Arithmetization

namespace Formula

variable {cost : Nat}

/-! ## Quotients inside formulas -/

/-- A formula made by sums, products and changes of sign from a quotient whose divisor depends on a
register; `k` is the degree of the factors beside the quotient. -/
inductive Divides (cost : Nat) : Formula → Nat → Prop
  | inv {b : Formula} (h : b.degree cost ≠ 0) : Divides cost (.inv b) 0
  | div {a b : Formula} (h : b.degree cost ≠ 0) : Divides cost (.div a b) (a.degree cost)
  | addLeft {a b : Formula} {k : Nat} (h : Divides cost a k) : Divides cost (.add a b) k
  | addRight {a b : Formula} {k : Nat} (h : Divides cost b k) : Divides cost (.add a b) k
  | subLeft {a b : Formula} {k : Nat} (h : Divides cost a k) : Divides cost (.sub a b) k
  | subRight {a b : Formula} {k : Nat} (h : Divides cost b k) : Divides cost (.sub a b) k
  | neg {a : Formula} {k : Nat} (h : Divides cost a k) : Divides cost (.neg a) k
  | mulLeft {a b : Formula} {k : Nat} (h : Divides cost a k) :
    Divides cost (.mul a b) (k + b.degree cost)
  | mulRight {a b : Formula} {k : Nat} (h : Divides cost b k) :
    Divides cost (.mul a b) (a.degree cost + k)

/-- **The charge for a quotient is never lost**, and factors beside it come on top. -/
theorem Divides.le_degree {f : Formula} {k : Nat} (h : f.Divides cost k) :
    min (cost + k) Degree.cap ≤ f.degree cost := by
  induction h with
  | inv h =>
    rw [degree_inv, if_neg h]
    omega
  | div h =>
    rw [degree_div, if_neg h, Degree.addCapped]
    omega
  | addLeft _ ih =>
    rw [degree_add]
    omega
  | addRight _ ih =>
    rw [degree_add]
    omega
  | subLeft _ ih =>
    rw [degree_sub]
    omega
  | subRight _ ih =>
    rw [degree_sub]
    omega
  | neg _ ih =>
    rw [degree_neg]
    exact ih
  | mulLeft _ ih =>
    rw [degree_mul, Degree.addCapped]
    omega
  | mulRight _ ih =>
    rw [degree_mul, Degree.addCapped]
    omega

/-! ## Formulas without quotients -/

/-- The values of a formula are those of a polynomial of total degree at most `n`. -/
def IsPolynomial (n : Nat) (f : Formula) : Prop :=
  ∃ P : MvPolynomial Place Element, P.totalDegree ≤ n ∧ ∀ x, f.value x = MvPolynomial.eval x P

open BoundedPolynomial (eval)

/-- The values of a formula are those of a polynomial with the degree of the formula. -/
def IsBounded (cost : Nat) (f : Formula) : Prop :=
  ∃ p : BoundedPolynomial Place, p.degree = f.degree cost ∧ ∀ x, eval x p = f.value x

namespace IsBounded

variable {a b : Formula}

theorem add (ha : IsBounded cost a) (hb : IsBounded cost b) : IsBounded cost (.add a b) := by
  obtain ⟨p, hp, hpvalue⟩ := ha
  obtain ⟨q, hq, hqvalue⟩ := hb
  refine ⟨p.add q, ?_, fun x => ?_⟩
  · rw [degree_add, ← hp, ← hq]
    rfl
  · rw [BoundedPolynomial.eval_add, hpvalue, hqvalue, value_add]

theorem sub (ha : IsBounded cost a) (hb : IsBounded cost b) : IsBounded cost (.sub a b) := by
  obtain ⟨p, hp, hpvalue⟩ := ha
  obtain ⟨q, hq, hqvalue⟩ := hb
  refine ⟨p.sub q, ?_, fun x => ?_⟩
  · rw [degree_sub, ← hp, ← hq]
    rfl
  · rw [BoundedPolynomial.eval_sub, hpvalue, hqvalue, value_sub]

theorem mul (ha : IsBounded cost a) (hb : IsBounded cost b) : IsBounded cost (.mul a b) := by
  obtain ⟨p, hp, hpvalue⟩ := ha
  obtain ⟨q, hq, hqvalue⟩ := hb
  refine ⟨p.mul q, ?_, fun x => ?_⟩
  · rw [degree_mul, ← hp, ← hq]
    rfl
  · rw [BoundedPolynomial.eval_mul, hpvalue, hqvalue, value_mul]

theorem neg (ha : IsBounded cost a) : IsBounded cost (.neg a) := by
  obtain ⟨p, hp, hpvalue⟩ := ha
  refine ⟨p.neg, ?_, fun x => ?_⟩
  · rw [degree_neg, ← hp]
    rfl
  · rw [BoundedPolynomial.eval_neg, hpvalue, value_neg]

theorem pow (ha : IsBounded cost a) (n : Nat) : IsBounded cost (.pow a n) := by
  obtain ⟨p, hp, hpvalue⟩ := ha
  refine ⟨p.pow n, ?_, fun x => ?_⟩
  · rw [degree_pow, ← hp]
    rfl
  · rw [BoundedPolynomial.eval_pow, hpvalue, value_pow]

/-- The zeroth power forgets its base, whatever that divides by. -/
theorem zerothPower (a : Formula) : IsBounded cost (.pow a 0) := by
  refine ⟨.const 1, ?_, fun x => ?_⟩
  · rw [degree_pow, Degree.mulCapped, Nat.zero_min, Nat.mul_zero, Nat.zero_min]
    rfl
  · rw [BoundedPolynomial.eval_const, value_pow, Element.pow_eq, pow_zero]

/-- A divisor of degree zero has one value, and so has its inverse. -/
theorem exists_inv_eq (hb : IsBounded cost b) (hzero : b.degree cost = 0) :
    ∃ c : Element, ∀ x, (b.value x).inv = c := by
  obtain ⟨q, hq, hvalue⟩ := hb
  obtain ⟨c, hc⟩ := BoundedPolynomial.exists_eval_eq (hq.trans hzero)
  exact ⟨c.inv, fun x => by rw [← hvalue, hc]⟩

theorem inv (hb : IsBounded cost b) (hzero : b.degree cost = 0) : IsBounded cost (.inv b) := by
  obtain ⟨c, hc⟩ := hb.exists_inv_eq hzero
  refine ⟨.const c, ?_, fun x => ?_⟩
  · rw [degree_inv, if_pos hzero]
    rfl
  · rw [BoundedPolynomial.eval_const, value_inv, hc]

theorem div (ha : IsBounded cost a) (hb : IsBounded cost b) (hzero : b.degree cost = 0) :
    IsBounded cost (.div a b) := by
  obtain ⟨p, hp, hpvalue⟩ := ha
  obtain ⟨c, hc⟩ := hb.exists_inv_eq hzero
  refine ⟨p.mul (.const c), ?_, fun x => ?_⟩
  · rw [degree_div, if_pos hzero, ← hp]
    rfl
  · rw [BoundedPolynomial.eval_mul, BoundedPolynomial.eval_const, hpvalue, value_div, hc]

end IsBounded

/-- A formula below the charge for a quotient is a polynomial, with the degree of the formula. -/
theorem isBounded_of_degree_lt {f : Formula} (hcost : f.degree cost < cost)
    (hcap : f.degree cost < Degree.cap) : IsBounded cost f := by
  induction f with
  | number n => exact ⟨.const (.ofNat n), rfl, fun x => BoundedPolynomial.eval_const x _⟩
  | place s => exact ⟨.var s, rfl, fun x => BoundedPolynomial.eval_var x s⟩
  | add a b iha ihb =>
    rw [degree_add] at hcost hcap
    exact (iha (by omega) (by omega)).add (ihb (by omega) (by omega))
  | sub a b iha ihb =>
    rw [degree_sub] at hcost hcap
    exact (iha (by omega) (by omega)).sub (ihb (by omega) (by omega))
  | mul a b iha ihb =>
    rw [degree_mul, Degree.addCapped] at hcost hcap
    exact (iha (by omega) (by omega)).mul (ihb (by omega) (by omega))
  | div a b iha ihb =>
    -- a divisor that is not constant would have been charged for
    have hzero : b.degree cost = 0 := by
      by_contra hb
      rw [degree_div, if_neg hb, Degree.addCapped] at hcost hcap
      omega
    rw [degree_div, if_pos hzero, Degree.addCapped] at hcost hcap
    exact (iha (by omega) (by omega)).div (ihb (by omega) (by omega)) hzero
  | neg a ih =>
    rw [degree_neg] at hcost hcap
    exact (ih hcost hcap).neg
  | inv b ih =>
    have hzero : b.degree cost = 0 := by
      by_contra hb
      rw [degree_inv, if_neg hb] at hcost
      omega
    rw [degree_inv, if_pos hzero] at hcost hcap
    exact (ih (by omega) (by omega)).inv hzero
  | pow a n ih =>
    by_cases hn : n = 0
    · subst hn
      exact IsBounded.zerothPower a
    · -- any other power has at least the degree of its base
      rw [degree_pow, Degree.mulCapped] at hcost hcap
      have hone : 1 ≤ min n Degree.cap := by
        have : 0 < Degree.cap := by decide
        omega
      have hle : a.degree cost ≤ a.degree cost * min n Degree.cap :=
        Nat.le_mul_of_pos_right _ hone
      exact (ih (by omega) (by omega)).pow n

/-- **Below the charge for a quotient formulas are polynomials.** -/
theorem isPolynomial_of_degree_lt {f : Formula} (h : f.degree cost < min cost Degree.cap) :
    f.IsPolynomial (f.degree cost) := by
  obtain ⟨p, hp, hvalue⟩ := isBounded_of_degree_lt (by omega : f.degree cost < cost) (by omega)
  refine ⟨p.poly, ?_, fun x => (hvalue x).symm⟩
  rw [← hp]
  apply p.totalDegree_le
  omega

end Formula

/-! ## Limits on degrees -/

theorem Degree.maxOf_mem {ds : List Nat} (h : 0 < maxOf ds) : maxOf ds ∈ ds := by
  -- the maximum so far is where the fold began, or one of the degrees
  have hfold : ∀ (ds : List Nat) (top : Nat), ds.foldl max top = top ∨ ds.foldl max top ∈ ds := by
    intro ds
    induction ds with
    | nil => exact fun top => .inl rfl
    | cons d ds ih =>
      intro top
      rw [List.foldl_cons]
      rcases ih (max top d) with htop | hmem
      · rw [htop]
        by_cases hd : d ≤ top
        · exact .inl (Nat.max_eq_left hd)
        · rw [Nat.max_eq_right (by omega)]
          exact .inr (List.mem_cons_self ..)
      · exact .inr (List.mem_cons_of_mem _ hmem)
  rcases hfold ds 0 with hzero | hmem
  · rw [maxOf, hzero] at h
    omega
  · exact hmem

namespace Schema

/-- A schema with a constraint over the limit is told so, by the first constraint of the greatest
degree. -/
theorem exists_degreeLimit {s : Schema} {limits : Limits}
    (h : limits.maxConstraintDegree < s.maxDegree) :
    ∃ c, s.constraints[c]? = some s.maxDegree
      ∧ .degreeLimit c s.maxDegree limits.maxConstraintDegree ∈ s.violations limits := by
  have hmem : s.maxDegree ∈ s.constraints := Degree.maxOf_mem (Nat.zero_lt_of_lt h)
  obtain ⟨c, hc⟩ : ∃ c, s.constraints.idxOf? s.maxDegree = some c := by
    apply Option.ne_none_iff_exists'.1
    intro hnone
    exact List.idxOf?_eq_none_iff.1 hnone hmem
  obtain ⟨hlt, hget, -⟩ := List.idxOf?_eq_some_iff.1 hc
  refine ⟨c, ?_, ?_⟩
  · rw [List.getElem?_eq_getElem hlt, hget]
  · apply List.mem_append_right
    rw [excess, if_pos h, hc]
    exact List.mem_singleton.2 rfl

theorem maxDegree_le_of_violations {s : Schema} {limits : Limits} (h : s.violations limits = []) :
    s.maxDegree ≤ limits.maxConstraintDegree := by
  by_contra hlt
  obtain ⟨c, -, hmem⟩ := exists_degreeLimit (Nat.lt_of_not_le hlt)
  rw [h] at hmem
  cases hmem

end Schema

/-- What becomes of a well-shaped draft that memory can hold: its constraints have the degrees of
its formulas, and only limits can refuse it. -/
theorem Draft.build_formulas {d : Draft} {t e : Procedure} (ht : d.transition = some t)
    (he : d.evaluation = some e)
    (hshaped : WellShaped d.modulus d.constants d.functions d.registers t e)
    (hwidth : t.width < 2 ^ 61) (hcount : e.width < 2 ^ 61) {fs : List Formula}
    (hfs : Formula.body d.constants d.functions e.body = .ok (.vector fs)) (o : CompileOptions) :
    ∃ s : Schema, Formula.body s.constants s.functions s.evaluation.body = .ok (.vector fs)
      ∧ s.constraints = fs.map (Formula.degree o.inverseCost)
      ∧ d.build o
        = if s.violations o.limits = [] then .ok s else .error (s.violations o.limits) := by
  let cx : Degree.Context := ⟨d.constants, d.functions, o.inverseCost⟩
  obtain ⟨td, htd, -⟩ := cx.procedure_fits hshaped.proper hshaped.checked hshaped.transition_checks
    hwidth hwidth
  obtain ⟨ed, hed, -⟩ := cx.procedure_fits hshaped.proper hshaped.checked
    hshaped.evaluation_checks hwidth hcount
  have hformed := hshaped.evaluation_checks.formed
  -- sharing keeps degrees and formulas
  have htd' := Degree.Context.procedure_share_refines hshaped.checked
    hshaped.transition_checks.formed o.sharing td htd
  have hed' := Degree.Context.procedure_share_refines hshaped.checked hformed o.sharing ed hed
  obtain ⟨u, hu, rfl⟩ := Formula.body_reaches hshaped.proper hshaped.checked hshaped.width_pos
    hshaped.evaluation_checks (Degree.Context.procedure_eq_ok.1 hed).1
  obtain rfl := Except.ok.inj (hu.symm.trans hfs)
  have hshared := Formula.body_share_refines hshaped.checked hformed o.sharing _ hfs
  exact ⟨⟨d.modulus, d.constants, d.functions.map (Function.share o.sharing), d.registers,
    t.share o.sharing, e.share o.sharing, td, fs.map (Formula.degree o.inverseCost)⟩, hshared, rfl,
    build_eq ht he rfl htd' hed'⟩

/-- What a machine evaluates are the values of the formulas of its schema. -/
theorem Machine.evaluate_eq_value {s : Schema} (hs : s.WellShaped) {mo : MachineOptions}
    {m : Machine} (hm : ofSchema s mo = .ok m) {fs : List Formula}
    (hfs : Formula.body s.constants s.functions s.evaluation.body = .ok (.vector fs))
    {row next statics v : List Element} (hv : m.evaluate row next statics = .ok v) :
    v = fs.map (Formula.value (Place.assign [row, next] statics)) := by
  obtain ⟨hfield, rules, ext, hrules, -, rfl⟩ := ofSchema_eq_ok hm
  obtain ⟨hrow, hnext, hstatics, hrun⟩ := evaluate_eq_ok hv
  have hrows : ∀ r ∈ [row, next], r.length = s.traceWidth :=
    List.forall_mem_cons.2 ⟨hrow, List.forall_mem_singleton.2 hnext⟩
  have hsize : statics.length = s.registers.size :=
    Eq.trans hstatics (length_statics hs hfield hrules)
  obtain ⟨w, hw, hvector⟩ := bind_eq_ok.1 hrun
  obtain rfl := Formula.body_agrees hs.checked hs.evaluation_checks hfs hrows hsize w hw
  exact (Except.ok.inj hvector).symm

namespace Schema

/-- **Constraints that divide.** A division is charged the greatest degree that a constraint may
have. The constraints of a module have formulas. One in which a quotient by something that is not
constant stands beside factors of degree `k` has at least the charge and `k` as its degree, up to
the cap; if `k` is not zero, the module is refused, and the fault names a constraint over the limit,
or memory cannot hold the module. In a module that compiles, a constraint that divides therefore has
nothing but constants beside the quotient, and its degree is the limit itself; a constraint of a
smaller degree is a polynomial of that degree. Machines evaluate the formulas. -/
theorem dividing_constraints {text : List Char} {tokens : List Token} {d : Draft} {t e : Procedure}
    (hscan : Token.scan text = .ok tokens) (hparse : Grammar.parse tokens = .ok d)
    (ht : d.transition = some t) (he : d.evaluation = some e) (limits : Limits)
    (sharing : SharingOptions) :
    ∃ fs, Formula.body d.constants d.functions e.body = .ok (.vector fs)
      ∧ (∀ f ∈ fs, ∀ k, f.Divides limits.maxConstraintDegree k →
        min (limits.maxConstraintDegree + k) Degree.cap ≤ f.degree limits.maxConstraintDegree
        ∧ (0 < k → limits.maxConstraintDegree < Degree.cap →
          ∃ faults, compile text { limits, sharing } = .error faults
            ∧ (if 2 ^ 61 ≤ t.width ∨ 2 ^ 61 ≤ e.width then faults = [.stop .capacity]
              else ∃ c n, .degreeLimit c n limits.maxConstraintDegree ∈ faults
                ∧ (fs.map (Formula.degree limits.maxConstraintDegree))[c]? = some n
                ∧ limits.maxConstraintDegree < n)))
      ∧ ∀ s, compile text { limits, sharing } = .ok s →
        s.constraints = fs.map (Formula.degree limits.maxConstraintDegree)
        ∧ (∀ f ∈ fs, ∀ k, f.Divides limits.maxConstraintDegree k →
          limits.maxConstraintDegree < Degree.cap →
            k = 0 ∧ f.degree limits.maxConstraintDegree = limits.maxConstraintDegree)
        ∧ (∀ f ∈ fs, f.degree limits.maxConstraintDegree
            < min limits.maxConstraintDegree Degree.cap →
          f.IsPolynomial (f.degree limits.maxConstraintDegree))
        ∧ ∀ mo m, Machine.ofSchema s mo = .ok m → ∀ row next statics v,
          m.evaluate row next statics = .ok v →
            v = fs.map (Formula.value (Place.assign [row, next] statics)) := by
  have hshaped := Grammar.parse_wellShaped hparse ht he
  have hcompile : compile text { limits, sharing } = d.build { limits, sharing } := by
    rw [compile, hscan]
    change (Grammar.parse tokens >>= fun d => d.build { limits, sharing }) = _
    rw [hparse]
    rfl
  obtain ⟨u, hfs, hfits⟩ := Formula.body_fits hshaped.proper hshaped.checked hshaped.width_pos
    hshaped.evaluation_checks
  obtain ⟨fs, rfl, -⟩ := hfits.of_vector hshaped.count_pos
  by_cases hwide : 2 ^ 61 ≤ t.width ∨ 2 ^ 61 ≤ e.width
  · -- there are formulas, but nothing is built of them
    have hstops := hcompile.trans (Draft.build_stops ht he hshaped hwide _)
    refine ⟨fs, hfs, fun f hf k hk => ⟨hk.le_degree, fun _ _ => ⟨_, hstops, ?_⟩⟩, fun s' hs' => ?_⟩
    · rw [if_pos hwide]
    · cases hstops.symm.trans hs'
  obtain ⟨hwidth, hcount⟩ := not_or.1 hwide
  obtain ⟨s, hshared, hconstraints, hbuild⟩ := Draft.build_formulas ht he hshaped
    (Nat.not_le.1 hwidth) (Nat.not_le.1 hcount) hfs { limits, sharing }
  rw [← hcompile] at hbuild
  have hmax : ∀ f ∈ fs, f.degree limits.maxConstraintDegree ≤ s.maxDegree := by
    intro f hf
    rw [maxDegree, hconstraints]
    exact Degree.le_maxOf (List.mem_map_of_mem hf)
  refine ⟨fs, hfs, fun f hf k hk => ⟨hk.le_degree, fun hpos hcap => ?_⟩, fun s' hs' => ?_⟩
  · -- the charge and one more are over the limit
    have hover : limits.maxConstraintDegree < s.maxDegree := by
      have hdegree := hk.le_degree
      have hle := hmax f hf
      omega
    obtain ⟨c, hc, hmem⟩ := exists_degreeLimit hover
    have hbroken : s.violations limits ≠ [] := List.ne_nil_of_mem hmem
    rw [if_neg hbroken] at hbuild
    refine ⟨_, hbuild, ?_⟩
    rw [if_neg hwide]
    exact ⟨c, _, hmem, hconstraints ▸ hc, hover⟩
  · by_cases hkept : s.violations limits = []
    · rw [if_pos hkept] at hbuild
      obtain rfl := Except.ok.inj (hbuild.symm.trans hs')
      refine ⟨hconstraints, fun f hf k hk hcap => ?_, fun f _ hlt => ?_,
        fun mo m hm _ _ _ _ hv => ?_⟩
      · have hdegree := hk.le_degree
        have hle := hmax f hf
        have hlimit := maxDegree_le_of_violations hkept
        omega
      · exact Formula.isPolynomial_of_degree_lt hlt
      · exact Machine.evaluate_eq_value (compile_wellShaped hs') hm hshared hv
    · rw [if_neg hkept] at hbuild
      cases hbuild.symm.trans hs'

/-- A module with a slope: a function inverts one register, and another is multiplied with that. -/
def slopeText : List Char :=
  "(module (field prime 340282366920938463463374607393113505793)
    (function (result scalar) (param scalar) (inv (load.param 0)))
    (transition (span 1) (result vector 2) (load.trace 0))
    (evaluation (span 2) (result vector 2)
      (local scalar)
      (store.local 0 (call 0 (get (load.trace 0) 0)))
      (vector (sub (get (load.trace 1) 1) (mul (load.local 0) (get (load.trace 0) 1)))
        (sub (get (load.trace 1) 0) (get (load.trace 0) 0)))))".toList

/-- Its constraints, without the local and the function. -/
def slopeFormulas : List Formula :=
  [.sub (.place (.trace 1 1)) (.mul (.inv (.place (.trace 0 0))) (.place (.trace 0 1))),
    .sub (.place (.trace 1 0)) (.place (.trace 0 0))]

/-- It is refused for the first of its constraints. -/
theorem dividing_constraints_slope :
    ∃ tokens d t e faults, Token.scan slopeText = .ok tokens ∧ Grammar.parse tokens = .ok d
      ∧ d.transition = some t ∧ d.evaluation = some e
      ∧ Formula.body d.constants d.functions e.body = .ok (.vector slopeFormulas)
      ∧ compile slopeText {} = .error faults ∧ .degreeLimit 0 17 16 ∈ faults := by
  have hcheck : ((Token.scan slopeText).toOption.any fun tokens =>
      (Grammar.parse tokens).toOption.any fun d => (d.transition.any (·.width < 2 ^ 61))
        && d.evaluation.any fun e => e.width < 2 ^ 61
          && (Formula.body d.constants d.functions e.body).toOption
            == some (.vector slopeFormulas)) = true := by
    unfold slopeText
    rewrite [String.toList_ofList]
    decide +kernel
  simp only [Option.any_eq_true, Bool.and_eq_true, beq_iff_eq, toOption_eq_some] at hcheck
  obtain ⟨tokens, hscan, d, hparse, ⟨t, ht, hwidth⟩, e, he, hcount, hformulas⟩ := hcheck
  rw [decide_eq_true_eq, ← Nat.not_le] at hwidth hcount
  obtain ⟨fs, hfs, hdivides, -⟩ := dividing_constraints hscan hparse ht he {} {}
  obtain rfl := Tensor.vector.inj (Except.ok.inj (hformulas.symm.trans hfs))
  have hslope : (slopeFormulas.get ⟨0, by decide⟩).Divides 16 1 :=
    .subRight (.mulLeft (.inv (by decide)))
  obtain ⟨faults, hcompile, hfaults⟩ :=
    (hdivides _ (List.get_mem ..) 1 hslope).2 (by decide) (by decide)
  rw [if_neg (not_or.2 ⟨hwidth, hcount⟩)] at hfaults
  obtain ⟨c, n, hmem, hc, hn⟩ := hfaults
  -- the second constraint is below the limit
  obtain ⟨rfl, rfl⟩ : c = 0 ∧ n = 17 := by
    rcases c with _ | _ | c
    · exact ⟨rfl, (Option.some.inj hc).symm⟩
    · obtain rfl := Option.some.inj hc
      exact absurd hn (by decide)
    · cases hc
  exact ⟨tokens, d, t, e, faults, hscan, hparse, ht, he, hformulas, hcompile, hmem⟩

/-! ## A quotient by itself -/

/-- No polynomial of small degree inverts: its product with the variable would take the value one
too often. -/
theorem exists_eval_ne_inv {P : MvPolynomial Place Element} {k : Nat}
    (hk : k ≤ Element.twoAdicity) (hP : P.totalDegree + 1 < 2 ^ k) :
    ∃ x : Element, x ≠ 0 ∧ MvPolynomial.eval (Place.assign [[x], [0]] []) P ≠ x.inv := by
  by_contra hnone
  have hinverts : ∀ x : Element, x ≠ 0 →
      MvPolynomial.eval (Place.assign [[x], [0]] []) P = x.inv := by
    intro x hx
    by_contra hne
    exact hnone ⟨x, hx, hne⟩
  -- along the first register, with zero everywhere else
  let f : Place → Polynomial Element := fun place => if place = .trace 0 0 then .X else 0
  let p : BoundedPolynomial Place := ⟨P.totalDegree, P, fun _ => Nat.le_refl _⟩
  have hassign (x : Element) : (fun place => (f place).eval x) = Place.assign [[x], [0]] [] := by
    funext place
    rcases place with ⟨_ | _ | row, _ | column⟩ | index <;> simp [f, Place.assign]
  have hf : ∀ place, (f place).natDegree ≤ 1 := by
    intro place
    by_cases hplace : place = .trace 0 0
    · simp [f, hplace]
    · simp [f, hplace]
  have hdegree : (Place.compose f p).natDegree ≤ P.totalDegree * 1 :=
    MvPolynomial.aeval_natDegree_le P (Nat.le_refl _) f hf
  have hroot := Element.rootOfUnity_isPrimitiveRoot hk
  have hzero : (Polynomial.X * Place.compose f p - 1 : Polynomial Element) = 0 := by
    refine Polynomial.eq_zero_of_natDegree_lt_card_of_eval_eq_zero _
      (f := fun i : Fin (2 ^ k) => Element.rootOfUnity k ^ i.val) ?_ ?_ ?_
    · intro i j hij
      exact Fin.ext (hroot.pow_inj i.isLt j.isLt hij)
    · intro i
      have hne : Element.rootOfUnity k ^ i.val ≠ 0 := pow_ne_zero _ (hroot.ne_zero (by positivity))
      have hvalue := hinverts _ hne
      rw [Polynomial.eval_sub, Polynomial.eval_mul, Polynomial.eval_X, Polynomial.eval_one,
        Place.eval_compose, hassign, BoundedPolynomial.eval, hvalue, Element.mul_inv_eq_one hne,
        sub_self]
    · have hmul : (Polynomial.X * Place.compose f p).natDegree ≤ 1 + P.totalDegree :=
        Polynomial.natDegree_mul_le.trans
          (Nat.add_le_add Polynomial.natDegree_X_le (by omega))
      have hsub := Polynomial.natDegree_sub_le (Polynomial.X * Place.compose f p) 1
      rw [Polynomial.natDegree_one] at hsub
      rw [Fintype.card_fin]
      omega
  have heval := congrArg (Polynomial.eval 0) hzero
  simp at heval

/-- A module whose one constraint is the inverse of a register. -/
def reciprocalText : List Char :=
  "(module (field prime 340282366920938463463374607393113505793)
    (transition (span 1) (result vector 1) (load.trace 0))
    (evaluation (span 2) (result vector 1) (vector (inv (get (load.trace 0) 0)))))".toList

/-- Its evaluation procedure. -/
def reciprocalConstraint : Block :=
  ⟨[], [], .node .vector (.vector 1) [.node (.unary .inv) .scalar
    [.node (.get 0) .scalar [.node (.load .trace 0) (.vector 1) []]]]⟩

/-- **A quotient that is accepted.** The inverse of a register compiles as a constraint of degree
sixteen, which is the limit, and no polynomial of that degree has its values. -/
theorem dividing_constraints_reciprocal :
    ∃ s m, compile reciprocalText {} = .ok s ∧ Machine.ofSchema s {} = .ok m
      ∧ Formula.body s.constants s.functions s.evaluation.body
        = .ok (.vector [.inv (.place (.trace 0 0))])
      ∧ (Formula.inv (.place (.trace 0 0))).Divides 16 0 ∧ s.constraints = [16]
      ∧ (∀ x y : Element, x ≠ 0 → m.evaluate [x] [y] [] = .ok [x.inv])
      ∧ ¬ ∃ P : MvPolynomial Place Element, P.totalDegree ≤ 16 ∧ ∀ x y v,
        m.evaluate [x] [y] [] = .ok v →
          v = [MvPolynomial.eval (Place.assign [[x], [y]] []) P] := by
  have hcheck : ((compile reciprocalText { sharing := { enabled := false } }).toOption.any fun s =>
      s.constraints == [16] && s.evaluation.body.block.toBody == reciprocalConstraint.toBody
      && (Formula.body s.constants s.functions s.evaluation.body).toOption
        == some (.vector [.inv (.place (.trace 0 0))])
      && (Machine.ofSchema s {}).toOption.any fun m =>
        m.traceWidth == 1 && m.statics.length == 0 && m.constraintCount == 1) = true := by
    unfold reciprocalText
    rewrite [String.toList_ofList]
    decide +kernel
  simp only [Option.any_eq_true, Bool.and_eq_true, beq_iff_eq, toOption_eq_some] at hcheck
  obtain ⟨s, hs, ⟨⟨hdegrees, hevaluation⟩, hformulas⟩, m, hm, ⟨hwidth, hstatics⟩, hcount⟩ := hcheck
  have hshaped := compile_wellShaped hs
  -- the machine of the module as it is written, and then that of the module with sharing
  have hs' := compile_share (o := {}) rfl hs {}
  obtain ⟨m', hm'⟩ := Machine.ofSchema_share hshaped hm {}
  have hformulas' := Formula.body_share_refines hshaped.checked
    hshaped.evaluation_checks.formed {} _ hformulas
  obtain ⟨-, rules, ext, -, -, hassemble⟩ := Machine.ofSchema_eq_ok hm
  have hconstraint : m.evaluationBlock = reciprocalConstraint := by
    rw [hassemble, ← Block.toBody_block reciprocalConstraint, ← hevaluation, Block.toBody_block]
    rfl
  have hrow (x : Element) : [x].length = m.traceWidth := hwidth.symm
  have hnone : ([] : List Element).length = m.statics.length := hstatics.symm
  have hplain (x y : Element) (hx : x ≠ 0) : m.evaluate [x] [y] [] = .ok [x.inv] := by
    rw [Machine.evaluate_eq (hrow x) (hrow y) hnone, hconstraint, hcount]
    have hinv : Value.inv (.scalar x) = .ok (.scalar x.inv) := by
      have hinverse : Value.inverse x = .ok x.inv := if_neg hx
      change Tensor.scalar <$> Value.inverse x = _
      rw [hinverse]
      rfl
    change ((([Value.inv (.scalar x)].mapM id >>= Value.concat) >>= Value.asVector) >>= _) = _
    rw [hinv]
    rfl
  have hevaluates (x y : Element) (hx : x ≠ 0) : m'.evaluate [x] [y] [] = .ok [x.inv] :=
    (Machine.sharing_refines (o := {}) rfl hs hs' hm hm' [x] [y] []).2.1 _ (hplain x y hx)
  refine ⟨_, m', hs', hm', hformulas', .inv (by decide), hdegrees, hevaluates, ?_⟩
  rintro ⟨P, hP, hvalues⟩
  obtain ⟨x, hx, hne⟩ := exists_eval_ne_inv (P := P) (k := 5) (by decide) (by omega)
  have hvalue := hvalues x 0 _ (hevaluates x 0 hx)
  exact hne (List.cons.inj hvalue).1.symm

end Schema

end Arithmetization
