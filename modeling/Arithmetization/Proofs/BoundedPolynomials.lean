import Arithmetization.Degree.Basic
import Arithmetization.Proofs.Abstraction
import Arithmetization.Proofs.Field
import Arithmetization.Value
import Mathlib.Algebra.MvPolynomial.CommRing
import Mathlib.Algebra.MvPolynomial.Degrees

/-!
Polynomials with a bound on their degree.

A `BoundedPolynomial` is a polynomial together with the degree that inference gives it. Every
operation of the language is one on bounded polynomials, and it commutes with both views of them: on
degrees it is what inference does, on values at a point it is what a run does. Degrees are counted
up to a cap, so a degree at the cap says nothing; below it saturation must not have understated
anything, which is what the field `totalDegree_le` of every operation proves.

`Degree.Bounds` carries this to tensors and to families of runs. Only division is partial: by a
polynomial of degree zero, which is a constant, all runs of a family divide or none does.
-/

set_option autoImplicit false

namespace Arithmetization

/-- A polynomial, with a bound on its degree that holds below the cap. -/
structure BoundedPolynomial (σ : Type) where
  degree : Nat
  poly : MvPolynomial σ Element
  totalDegree_le : degree < Degree.cap → poly.totalDegree ≤ degree

namespace BoundedPolynomial

open MvPolynomial (C X)

variable {σ : Type}

/-- The value at a point. -/
noncomputable def eval (x : σ → Element) (p : BoundedPolynomial σ) : Element :=
  MvPolynomial.eval x p.poly

/-! ## Operations -/

noncomputable def const (c : Element) : BoundedPolynomial σ where
  degree := 0
  poly := C c
  totalDegree_le _ := by rw [MvPolynomial.totalDegree_C]

/-- The polynomial that is one variable. -/
noncomputable def var (s : σ) : BoundedPolynomial σ where
  degree := 1
  poly := X s
  totalDegree_le _ := by rw [MvPolynomial.totalDegree_X]

noncomputable def add (p q : BoundedPolynomial σ) : BoundedPolynomial σ where
  degree := max p.degree q.degree
  poly := p.poly + q.poly
  totalDegree_le h := by
    have hp := p.totalDegree_le (by omega)
    have hq := q.totalDegree_le (by omega)
    have hadd := MvPolynomial.totalDegree_add p.poly q.poly
    omega

noncomputable def sub (p q : BoundedPolynomial σ) : BoundedPolynomial σ where
  degree := max p.degree q.degree
  poly := p.poly - q.poly
  totalDegree_le h := by
    have hp := p.totalDegree_le (by omega)
    have hq := q.totalDegree_le (by omega)
    have hsub := MvPolynomial.totalDegree_sub p.poly q.poly
    omega

noncomputable def neg (p : BoundedPolynomial σ) : BoundedPolynomial σ where
  degree := p.degree
  poly := -p.poly
  totalDegree_le h := by
    rw [MvPolynomial.totalDegree_neg]
    exact p.totalDegree_le h

noncomputable def mul (p q : BoundedPolynomial σ) : BoundedPolynomial σ where
  degree := Degree.addCapped p.degree q.degree
  poly := p.poly * q.poly
  totalDegree_le h := by
    unfold Degree.addCapped at h ⊢
    have hp := p.totalDegree_le (by omega)
    have hq := q.totalDegree_le (by omega)
    have hmul := MvPolynomial.totalDegree_mul p.poly q.poly
    omega

/-- A power. The exponent is cut off at the cap before the degree is multiplied with it. -/
noncomputable def pow (p : BoundedPolynomial σ) (e : Nat) : BoundedPolynomial σ where
  degree := Degree.mulCapped p.degree (min e Degree.cap)
  poly := p.poly ^ e
  totalDegree_le h := by
    unfold Degree.mulCapped at h ⊢
    have hlt : p.degree * min e Degree.cap < Degree.cap := by omega
    rw [Nat.min_eq_left (Nat.le_of_lt hlt)]
    have hpow := MvPolynomial.totalDegree_pow p.poly e
    by_cases he : e = 0
    · subst he
      omega
    -- the degree of a power that is not the zeroth is no less than that of its base
    have hone : 1 ≤ min e Degree.cap := by
      have : 0 < Degree.cap := by decide
      omega
    have hbase : p.degree < Degree.cap :=
      Nat.lt_of_le_of_lt (Nat.le_mul_of_pos_right _ hone) hlt
    have hp := p.totalDegree_le hbase
    by_cases hzero : p.degree = 0
    · have hconst : p.poly.totalDegree = 0 := by omega
      rw [hconst, Nat.mul_zero] at hpow
      omega
    · -- otherwise the exponent was not cut off, or the product would have reached the cap
      have hexp : min e Degree.cap < Degree.cap :=
        Nat.lt_of_le_of_lt (Nat.le_mul_of_pos_left _ (Nat.pos_of_ne_zero hzero)) hlt
      have hmin : min e Degree.cap = e := by omega
      rw [hmin]
      calc (p.poly ^ e).totalDegree ≤ e * p.poly.totalDegree := hpow
        _ ≤ e * p.degree := Nat.mul_le_mul_left e hp
        _ = p.degree * e := Nat.mul_comm ..

/-- A sum of products. -/
noncomputable def dot (ps qs : List (BoundedPolynomial σ)) : BoundedPolynomial σ :=
  (ps.zip qs).foldl (fun acc pq => acc.add (pq.1.mul pq.2)) (const 0)

/-! ## Degrees and values of operations -/

variable (x : σ → Element) (p q : BoundedPolynomial σ)

@[simp] theorem eval_const (c : Element) : eval x (const c) = c :=
  MvPolynomial.eval_C c

@[simp] theorem eval_var (s : σ) : eval x (var s) = x s :=
  MvPolynomial.eval_X s

@[simp] theorem eval_add : eval x (p.add q) = eval x p + eval x q :=
  map_add (MvPolynomial.eval x) p.poly q.poly

@[simp] theorem eval_sub : eval x (p.sub q) = eval x p - eval x q :=
  map_sub (MvPolynomial.eval x) p.poly q.poly

@[simp] theorem eval_neg : eval x p.neg = -eval x p :=
  map_neg (MvPolynomial.eval x) p.poly

@[simp] theorem eval_mul : eval x (p.mul q) = eval x p * eval x q :=
  map_mul (MvPolynomial.eval x) p.poly q.poly

@[simp] theorem eval_pow (e : Nat) : eval x (p.pow e) = (eval x p).pow e := by
  rw [Element.pow_eq]
  exact map_pow (MvPolynomial.eval x) p.poly e

theorem eval_dot (ps qs : List (BoundedPolynomial σ)) :
    eval x (dot ps qs) = Value.dot (ps.map (eval x)) (qs.map (eval x)) := by
  have hstep : ∀ (pqs : List (BoundedPolynomial σ × BoundedPolynomial σ))
      (acc : BoundedPolynomial σ),
      eval x (pqs.foldl (fun acc pq => acc.add (pq.1.mul pq.2)) acc)
        = (pqs.map (Prod.map (eval x) (eval x))).foldl (fun acc ab => acc + ab.1 * ab.2)
          (eval x acc) := by
    intro pqs
    induction pqs with
    | nil => exact fun acc => rfl
    | cons pq pqs ih =>
      intro acc
      rw [List.foldl_cons, ih, eval_add, eval_mul]
      rfl
  rw [dot, hstep, eval_const, Value.dot, ← List.zip_map]

theorem degree_dot (ps qs : List (BoundedPolynomial σ)) :
    (dot ps qs).degree = Degree.dot (ps.map degree) (qs.map degree) := by
  have hstep : ∀ (pqs : List (BoundedPolynomial σ × BoundedPolynomial σ))
      (acc : BoundedPolynomial σ),
      (pqs.foldl (fun acc pq => acc.add (pq.1.mul pq.2)) acc).degree
        = (pqs.map fun pq => Degree.addCapped pq.1.degree pq.2.degree).foldl max acc.degree := by
    intro pqs
    induction pqs with
    | nil => exact fun acc => rfl
    | cons pq pqs ih =>
      intro acc
      rw [List.foldl_cons, ih]
      rfl
  rw [dot, hstep, Degree.dot, Degree.maxOf, List.zipWith_map, List.zip_eq_zipWith, List.map_zipWith]
  rfl

/-- A polynomial of degree zero has one value. -/
theorem exists_eval_eq {p : BoundedPolynomial σ} (h : p.degree = 0) :
    ∃ c, ∀ x, eval x p = c := by
  have hzero : p.poly.totalDegree = 0 := by
    have := p.totalDegree_le (by rw [h]; decide)
    omega
  have hconst := MvPolynomial.totalDegree_eq_zero_iff_eq_C.1 hzero
  generalize MvPolynomial.coeff 0 p.poly = c at hconst
  exact ⟨c, fun x => by rw [eval, hconst, MvPolynomial.eval_C]⟩

end BoundedPolynomial

/-! ## Families of values -/

theorem Tensor.kind_map {α β : Type} (f : α → β) (t : Tensor α) : (t.map f).kind = t.kind := by
  cases t <;> rfl

namespace Degree

variable {σ : Type}

/-- The values of a family are polynomials, place by place, with the degrees of `d`. -/
def Bounds (d : Degree) (v : (σ → Element) → Value) : Prop :=
  ∃ t : Tensor (BoundedPolynomial σ), t.map BoundedPolynomial.degree = d
    ∧ ∀ x, v x = t.map (BoundedPolynomial.eval x)

/-- Runs that all end with values of degree `d`, or all with one fault. -/
abbrev Runs (d : Degree) (r : (σ → Element) → Except RunFault Value) : Prop :=
  Uniform (fun _ => True) (Bounds d) r

open BoundedPolynomial (eval)

theorem Runs.ok (t : Tensor (BoundedPolynomial σ)) :
    Runs (t.map BoundedPolynomial.degree) fun x => .ok (t.map (eval x)) :=
  Uniform.ok ⟨t, rfl, fun _ => rfl⟩

/-- Elements that all are a polynomial of degree `n`, or a fault that is the same for all. -/
abbrev ElementRuns (n : Nat) (r : (σ → Element) → Except RunFault Element) : Prop :=
  Uniform (fun _ => True)
    (fun w => ∃ p : BoundedPolynomial σ, p.degree = n ∧ (fun x => eval x p) = w) r

theorem ElementRuns.ok (p : BoundedPolynomial σ) : ElementRuns p.degree fun x => .ok (eval x p) :=
  Uniform.ok ⟨p, rfl, rfl⟩

/-- All runs invert a constant, unless it is zero. -/
theorem inverse_runs {p : BoundedPolynomial σ} (h : p.degree = 0) :
    ElementRuns 0 fun x => Value.inverse (eval x p) := by
  obtain ⟨c, hc⟩ := BoundedPolynomial.exists_eval_eq h
  simp only [hc]
  unfold Value.inverse
  split
  · exact Uniform.error trivial
  · exact Uniform.ok ⟨.const c.inv, rfl, funext fun x => BoundedPolynomial.eval_const x _⟩

/-- One step for every place of a tensor. -/
theorem runs_of_elements {α : Type} {t : Tensor α} {n : α → Nat}
    {f : (σ → Element) → α → Except RunFault Element}
    (h : ∀ a ∈ t.elements, ElementRuns (n a) fun x => f x a) :
    Runs (t.map n) fun x => t.mapM (f x) := by
  refine (Uniform.tensor h).imp ?_
  rintro v ⟨T, hT, hv⟩
  obtain ⟨s, hdegree, rfl⟩ := hT.exists_map
  refine ⟨s, hdegree, fun x => ?_⟩
  rw [hv x, Tensor.map_map]

/-- Two values, place by place. -/
theorem zipWith_runs {f : Nat → Nat → Nat} {g : Element → Element → Except RunFault Element}
    {t u : Tensor (BoundedPolynomial σ)} {d : Degree}
    (hpair : ∀ p ∈ t.elements, ∀ q ∈ u.elements,
      ElementRuns (f p.degree q.degree) fun x => g (eval x p) (eval x q))
    (h : zipWith f (t.map BoundedPolynomial.degree) (u.map BoundedPolynomial.degree) = .ok d) :
    Runs d fun x => Value.zipWith g (t.map (eval x)) (u.map (eval x)) := by
  unfold zipWith at h
  rw [Tensor.align_map] at h
  cases hp : Tensor.align t u with
  | none =>
    rw [hp] at h
    cases h
  | some p =>
    rw [hp] at h
    obtain rfl := Except.ok.inj h
    have helements : ∀ pq ∈ p.elements,
        ElementRuns (f pq.1.degree pq.2.degree) fun x => g (eval x pq.1) (eval x pq.2) :=
      fun pq hpq => hpair pq.1 (Tensor.mem_align hp hpq).1 pq.2 (Tensor.mem_align hp hpq).2
    rw [Tensor.map_map]
    by_cases hrows : Tensor.sameRows t u = true
    · refine (runs_of_elements helements).congr fun x => ?_
      rw [Value.zipWith, Tensor.sameRows_map, if_pos hrows, Tensor.align_map, hp]
      exact Tensor.mapM_map ..
    · refine (Uniform.error (e := .shape (.combine t.kind u.kind)) trivial).congr fun x => ?_
      rw [Value.zipWith, Tensor.sameRows_map, if_neg hrows, Tensor.kind_map, Tensor.kind_map]

/-- Products of vectors and matrices. -/
theorem product_runs {t u : Tensor (BoundedPolynomial σ)} {d : Degree}
    (h : product (t.map BoundedPolynomial.degree) (u.map BoundedPolynomial.degree) = .ok d) :
    Runs d fun x => Value.prod (t.map (eval x)) (u.map (eval x)) := by
  have hdot : ∀ ps qs : List (BoundedPolynomial σ),
      dot (ps.map BoundedPolynomial.degree) (qs.map BoundedPolynomial.degree)
        = (BoundedPolynomial.dot ps qs).degree :=
    fun ps qs => (BoundedPolynomial.degree_dot ps qs).symm
  cases t with
  | scalar p => cases h
  | vector ps =>
    cases u with
    | scalar q => cases h
    | matrix rows => cases h
    | vector qs =>
      obtain rfl := Except.ok.inj h
      rw [hdot]
      simp only [Tensor.map, Value.prod, List.length_map, ← BoundedPolynomial.eval_dot]
      split
      · exact Runs.ok (.scalar (BoundedPolynomial.dot ps qs))
      · exact Uniform.error trivial
  | matrix rows =>
    cases u with
    | scalar q => cases h
    | vector qs =>
      obtain rfl := Except.ok.inj h
      simp only [Tensor.map, Value.prod, List.length_map, List.all_map, List.map_map,
        Function.comp_def, hdot, ← BoundedPolynomial.eval_dot]
      split
      · have hok := Runs.ok (.vector (rows.map (BoundedPolynomial.dot · qs)))
        simpa only [Tensor.map, List.map_map, Function.comp_def] using hok
      · exact Uniform.error trivial
    | matrix cols =>
      obtain rfl := Except.ok.inj h
      have hwidth : ∀ {β : Type} (f : BoundedPolynomial σ → β),
          ((cols.map (·.map f)).head?.map List.length).getD 0
            = (cols.head?.map List.length).getD 0 := by
        intro β f
        cases cols <;> simp
      -- an entry that is missing is zero for degrees and for values
      have hvalue : ∀ (row : List (BoundedPolynomial σ)) (j : Nat) (x : σ → Element),
          Value.dot (row.map (eval x)) (cols.map fun col => (col.map (eval x)).getD j 0)
            = eval x (BoundedPolynomial.dot row (cols.map (·.getD j (.const 0)))) := by
        intro row j x
        rw [BoundedPolynomial.eval_dot, List.map_map]
        congr 1
        refine List.map_congr_left fun col _ => ?_
        have hgetD := List.getD_map (l := col) (n := j) (d := .const 0) (eval x)
        rwa [BoundedPolynomial.eval_const] at hgetD
      have hdegree : ∀ (row : List (BoundedPolynomial σ)) (j : Nat),
          dot (row.map BoundedPolynomial.degree)
              (cols.map fun col => (col.map BoundedPolynomial.degree).getD j 0)
            = (BoundedPolynomial.dot row (cols.map (·.getD j (.const 0)))).degree := by
        intro row j
        rw [BoundedPolynomial.degree_dot, List.map_map]
        congr 1
        refine List.map_congr_left fun col _ => ?_
        exact List.getD_map (l := col) (n := j) (d := .const 0) BoundedPolynomial.degree
      simp only [Tensor.map, Value.prod, List.length_map, List.all_map, List.map_map,
        Function.comp_def, hwidth, hvalue, hdegree, List.isEmpty_map]
      split
      · have hok := Runs.ok (.matrix (rows.map fun row =>
          (List.range ((cols.head?.map List.length).getD 0)).map fun j =>
            BoundedPolynomial.dot row (cols.map (·.getD j (.const 0)))))
        simpa only [Tensor.map, List.map_map, Function.comp_def] using hok
      · exact Uniform.error trivial

/-- Parts of a vector, one after the other. -/
theorem concat_runs (ts : List (Tensor (BoundedPolynomial σ))) :
    Runs (.vector ((ts.map (·.map BoundedPolynomial.degree)).flatMap Tensor.elements))
      fun x => Value.concat (ts.map (·.map (eval x))) := by
  have hpart : ∀ t ∈ ts, Uniform (fun _ => True)
      (fun w => w = fun x => t.elements.map (eval x))
      fun x => Value.part (t.map (eval x)) := by
    intro t _
    cases t with
    | scalar p => exact Uniform.ok rfl
    | vector ps => exact Uniform.ok rfl
    | matrix rows => exact Uniform.error trivial
  refine ((Uniform.list hpart).map (g := fun vs => Tensor.vector vs.flatten) ?_).congr fun x => ?_
  · rintro vs ⟨ws, hws, hvs⟩
    obtain rfl : ws = ts.map fun t x => t.elements.map (eval x) := by
      rw [← List.forall₂_eq_eq_eq, List.forall₂_map_right_iff]
      exact hws.flip
    refine ⟨.vector (ts.flatMap Tensor.elements), ?_, fun x => ?_⟩
    · rw [Tensor.map, List.map_flatMap, List.flatMap_map]
      simp only [Tensor.elements_map]
    · show Tensor.vector (vs x).flatten = _
      rw [hvs x, Tensor.map, List.map_flatMap, List.flatMap_def, List.map_map]
      rfl
  · rw [Value.concat, List.mapM_map]
    rfl

/-- One element of a vector. -/
theorem get_runs {t : Tensor (BoundedPolynomial σ)} {xs : List Nat} {i : Nat}
    (h : vectorOf (t.map BoundedPolynomial.degree) = .ok xs) :
    Runs (.scalar (xs.getD i 0)) fun x => Value.get (t.map (eval x)) i := by
  cases t with
  | scalar p => cases h
  | matrix rows => cases h
  | vector ps =>
    obtain rfl := Except.ok.inj h
    simp only [Tensor.map, Value.get, List.getElem?_map, List.getD_eq_getElem?_getD]
    cases ps[i]? with
    | none => exact Uniform.error trivial
    | some p => exact Runs.ok (.scalar p)

/-- Consecutive elements of a vector. -/
theorem slice_runs {t : Tensor (BoundedPolynomial σ)} {xs : List Nat} {first last : Nat}
    (h : vectorOf (t.map BoundedPolynomial.degree) = .ok xs) :
    Runs (.vector ((xs.drop first).take (last + 1 - first)))
      fun x => Value.slice (t.map (eval x)) first last := by
  cases t with
  | scalar p => cases h
  | matrix rows => cases h
  | vector ps =>
    obtain rfl := Except.ok.inj h
    simp only [Tensor.map, Value.slice, Value.segment?, List.length_map]
    by_cases hbounds : first ≤ last ∧ last < ps.length
    · have hok := Runs.ok (.vector ((ps.drop first).take (last + 1 - first)))
      simpa only [if_pos hbounds, Tensor.map, List.map_take, List.map_drop] using hok
    · simp only [if_neg hbounds]
      exact Uniform.error trivial

end Degree

end Arithmetization
