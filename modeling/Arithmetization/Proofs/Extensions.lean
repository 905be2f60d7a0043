import Arithmetization.Proofs.TraceRows

/-!
Constraints from extended values.

The evaluation domain has a multiple of the points of the composition domain, and both numbers are
powers of two. So point `j` of the composition domain is point `j * stride` of the evaluation
domain, and the point one step along the trace further is point `(j + compositionFactor) * stride`.
The values of the trace polynomials and of the secret registers at these points stand in the
extended columns, and a verifier that reads them there gets the row of the prover's constraint
columns (`Prover.constraints_from_extensions`).
-/

set_option autoImplicit false

namespace Arithmetization

/-- The extension factor is the composition factor times a power of two, at least two. -/
theorem Machine.extensionFactor_spec {s : Schema} {mo : MachineOptions} {m : Machine}
    (hm : ofSchema s mo = .ok m) :
    ∃ e l, m.compositionFactor = 2 ^ e ∧ m.extensionFactor = 2 ^ (e + l) ∧ 1 ≤ l := by
  obtain ⟨-, ⟨e, hfactor⟩, -⟩ := compositionFactor_spec hm
  obtain ⟨-, rules, ext, -, hext, rfl⟩ := ofSchema_eq_ok hm
  change s.compositionFactor = 2 ^ e at hfactor
  rw [hfactor, MachineOptions.extension] at hext
  change ∃ e l, s.compositionFactor = 2 ^ e ∧ ext = 2 ^ (e + l) ∧ 1 ≤ l
  split at hext
  case h_1 =>
    obtain rfl := Except.ok.inj hext
    exact ⟨e, 1, hfactor, (pow_succ' 2 e).symm, le_refl 1⟩
  case h_2 n _ =>
    split at hext
    case isFalse => cases hext
    case isTrue hadmissible =>
      obtain rfl := Except.ok.inj hext
      simp only [Bool.and_eq_true, decide_eq_true_eq] at hadmissible
      obtain ⟨⟨hpower, hleast⟩, -⟩ := hadmissible
      obtain ⟨k, rfl⟩ := isPowerOfTwo_iff.1 hpower
      rw [← pow_succ', Nat.pow_le_pow_iff_right (by decide)] at hleast
      exact ⟨e, k - e, hfactor, by rw [Nat.add_sub_cancel' (by omega)], by omega⟩

/-- How many points the evaluation domain has for each one of the composition domain. -/
def Machine.stride (m : Machine) : Nat :=
  m.extensionFactor / m.compositionFactor

/-- The secret registers are registers. -/
theorem lt_length_of_mem_zipIdx_filter {flags : List Bool} {i : Nat}
    (h : i ∈ (flags.zipIdx.filter Prod.fst).map Prod.snd) : i < flags.length := by
  obtain ⟨⟨flag, j⟩, hmem, rfl⟩ := List.mem_map.1 h
  have hget := List.mem_zipIdx_iff_getElem?.1 (List.mem_filter.1 hmem).1
  exact (List.getElem?_eq_some_iff.1 hget).1

namespace Prover

/-- The evaluation domain is as many times larger than the trace as the machine says. -/
theorem evaluation_eq {m : Machine} {trees : List InputTree} {p : Prover}
    (h : ofInputs m trees = .ok p) :
    Domain.ofSize (p.traceLength * m.extensionFactor) = .ok p.evaluation := by
  unfold ofInputs at h
  dsimp only at h
  split at h
  · cases h
  obtain ⟨inputs, -, h⟩ := bind_eq_ok.1 h
  obtain ⟨layout, -, h⟩ := bind_eq_ok.1 h
  split at h
  · cases h
  obtain ⟨execution, hexecution, h⟩ := bind_eq_ok.1 h
  obtain ⟨evaluation, hevaluation, h⟩ := bind_eq_ok.1 h
  obtain ⟨composition, -, h⟩ := bind_eq_ok.1 h
  obtain rfl := Except.ok.inj h
  obtain ⟨k, -, hsize, rfl⟩ := Domain.ofSize_eq_ok hexecution
  rw [hsize] at hevaluation
  exact hevaluation

namespace Built

variable {m : Machine} {trees : List InputTree} {p : Prover}
  {inputs : List (List Nat × List Element)} {layout : Layout}

/-- A row of the extended secret columns holds the values at its point of the polynomials of the
secret registers. -/
theorem row_secretColumns (h : Built m trees p inputs layout)
    (hsecrets : m.secrets =
      ((m.statics.map StaticRule.isSecret).zipIdx.filter Prod.fst).map Prod.snd)
    {a b : Nat} (hb : b ≤ Element.twoAdicity) (hab : a ≤ b) (hlength : layout.traceLength = 2 ^ a)
    (hexecution : p.execution = Domain.ofOrder a) (hevaluation : p.evaluation = Domain.ofOrder b)
    {j : Nat} (hj : j < 2 ^ b) :
    (∀ c ∈ p.secretColumns, c.length = 2 ^ b)
      ∧ p.secretColumns.row j = p.interpolatedSecrets (Element.rootOfUnity b ^ j) := by
  have ha : a ≤ Element.twoAdicity := hab.trans hb
  have hcolumn : ∀ i ∈ p.machine.secrets, (p.statics.getD i []).length = 2 ^ a := by
    intro i hi
    rw [h.machine_eq, hsecrets] at hi
    have hlt := lt_length_of_mem_zipIdx_filter hi
    rw [List.length_map, ← h.length_statics] at hlt
    rw [List.getD_eq_getElem _ _ hlt, h.length_column _ (List.getElem_mem hlt), hlength]
  have hcolumns : p.secretColumns = (p.machine.secrets.map fun i =>
      Transform.interpolate (p.statics.getD i [])).map (Transform.extend (2 ^ b)) := by
    rw [secretColumns, hevaluation, List.map_map]
    rfl
  have hpolys : ∀ c ∈ p.machine.secrets.map fun i => Transform.interpolate (p.statics.getD i []),
      c.length ≤ 2 ^ b := by
    intro c hc
    obtain ⟨i, hi, rfl⟩ := List.mem_map.1 hc
    rw [Transform.length_interpolate ha (hcolumn i hi)]
    exact Nat.pow_le_pow_right (by decide) hab
  rw [hcolumns]
  refine ⟨fun c hc => ?_, ?_⟩
  · obtain ⟨poly, hpoly, rfl⟩ := List.mem_map.1 hc
    rw [Transform.extend_eq hb (hpolys poly hpoly), List.length_map, List.length_range]
  · rw [Columns.row_extend hb hpolys hj, List.map_map, interpolatedSecrets, hexecution]
    exact List.map_congr_left fun i hi => (Domain.eval_interpolant ha (hcolumn i hi) _).symm

end Built

/-- **Constraints from extended values.** Once a prover has evaluated the constraints of some trace
polynomials over the composition domain, a verifier with the same public inputs gets each row of
them from rows of the trace polynomials and of the secret columns over the evaluation domain: those
at the same point and, for the trace, the ones a step along the trace further. -/
theorem constraints_from_extensions {text : List Char} {o : CompileOptions} {s : Schema}
    (hs : compile text o = .ok s) {mo : MachineOptions} {m : Machine}
    (hm : Machine.ofSchema s mo = .ok m) {trees : List InputTree} {p : Prover}
    (hp : ofInputs m trees = .ok p) {polys q : Columns} (hq : p.constraints polys = .ok q) :
    ∃ inputs v extended, inputValues (m.inputs.zip trees) = .ok inputs
      ∧ Verifier.ofInputs m (inputs.map Prod.fst) (m.publicTrees trees) = .ok v
      ∧ p.extend polys = .ok extended
      ∧ (∀ c ∈ extended ++ p.secretColumns, c.length = p.evaluation.size)
      ∧ ∀ j < p.composition.size, j * m.stride < p.evaluation.size
        ∧ p.composition.point j = p.evaluation.point (j * m.stride)
        ∧ ∃ row, v.constraintsAt (p.composition.point j) (extended.row (j * m.stride))
            (extended.row ((j + m.compositionFactor) * m.stride % p.evaluation.size))
            (p.secretColumns.row (j * m.stride)) = .ok row
          ∧ q.map (·[j]?) = row.map some := by
  obtain ⟨inputs, layout, hb⟩ := ofInputs_eq_ok hp
  obtain ⟨hformed, hsecrets⟩ := Machine.statics_formed hs hm
  obtain ⟨e, l, hfactor, hextension, -⟩ := Machine.extensionFactor_spec hm
  obtain ⟨v, hv, hmachine, -, hstatics⟩ := hb.exists_verifier hformed hsecrets
  obtain ⟨a, hk, hlength, hexecution, hcomposition, hconstraints⟩ := hb.constraint_rows hfactor
  obtain ⟨hwidth, hpolys, rows, rfl, hrows, hrow⟩ := hconstraints hq
  have hsize : p.traceLength = 2 ^ a := by rw [traceLength, hexecution]; rfl
  -- The evaluation domain has `2^l` points for each one of the composition domain.
  obtain ⟨b, hb', hpower, hevaluation⟩ := Domain.ofSize_eq_ok (evaluation_eq hp)
  obtain rfl : b = a + e + l := by
    rw [hsize, hextension, ← pow_add] at hpower
    have := Nat.pow_right_injective (le_refl 2) hpower
    omega
  have hlong : ∀ c ∈ polys, c.length ≤ 2 ^ (a + e + l) := fun c hc =>
    (hpolys c hc).trans_le (Nat.pow_le_pow_right (by decide) (by omega))
  have hcheck : p.checkPolynomials polys = .ok () := by
    obtain ⟨_, hcheck, -⟩ := bind_eq_ok.1 hq
    exact hcheck
  have hextend : p.extend polys = .ok (polys.map (Transform.extend (2 ^ (a + e + l)))) := by
    rw [extend, hcheck, hevaluation]
    rfl
  have hsecretRows {j : Nat} (hj : j < 2 ^ (a + e + l)) :=
    hb.row_secretColumns hsecrets hb' (by omega) hlength hexecution hevaluation hj
  have hcompSize : p.composition.size = 2 ^ (a + e) := by rw [hcomposition]; rfl
  have hevalSize : p.evaluation.size = 2 ^ (a + e + l) := by rw [hevaluation]; rfl
  refine ⟨inputs, v, _, hb.inputs_eq, hv, hextend, fun c hc => ?_, fun j hj => ?_⟩
  · rw [hevalSize]
    rcases List.mem_append.1 hc with hc | hc
    · obtain ⟨poly, hpoly, rfl⟩ := List.mem_map.1 hc
      rw [Transform.extend_eq hb' (hlong poly hpoly), List.length_map, List.length_range]
    · exact (hsecretRows (by positivity : 0 < 2 ^ (a + e + l))).1 c hc
  · have hstride : m.stride = 2 ^ l := by
      rw [Machine.stride, hextension, hfactor, pow_add, Nat.mul_div_cancel_left _ (by positivity)]
    rw [hcompSize] at hj
    rw [hstride]
    have hindex : j * 2 ^ l < 2 ^ (a + e + l) := by
      rw [pow_add 2 (a + e)]
      exact Nat.mul_lt_mul_of_pos_right hj (by positivity)
    have hpoint (i : Nat) : Element.rootOfUnity (a + e + l) ^ (i * 2 ^ l) =
        Element.rootOfUnity (a + e) ^ i := by
      rw [mul_comm, pow_mul, Element.rootOfUnity_pow hb']
    -- One step along the trace, seen in the evaluation domain.
    have hnext : Element.rootOfUnity (a + e + l) ^
        ((j + m.compositionFactor) * 2 ^ l % 2 ^ (a + e + l)) =
          Element.rootOfUnity (a + e) ^ j * p.execution.generator := by
      rw [(Element.rootOfUnity_isPrimitiveRoot hb').eq_orderOf, pow_mod_orderOf, hpoint, pow_add,
        hfactor, Element.rootOfUnity_pow hk, hexecution]
      rfl
    rw [hcomposition, hevaluation, Domain.point_ofOrder hk, Domain.point_ofOrder hb', hpoint]
    refine ⟨hindex, rfl, ?_⟩
    obtain ⟨row, hget⟩ : ∃ row, rows[j]? = some row :=
      ⟨_, List.getElem?_eq_getElem (hrows ▸ hj)⟩
    have heval := hrow j row hget _ rfl
    refine ⟨row, ?_, Columns.getElem?_ofRows hget (Machine.length_evaluate heval)⟩
    change (v.staticsAt _ _ >>= _) = _
    rw [(hsecretRows hindex).2, hpoint, hstatics, hmachine]
    change m.evaluate _ (Columns.row _ (_ % 2 ^ (a + e + l))) _ = _
    rw [Columns.row_extend hb' hlong hindex,
      Columns.row_extend hb' hlong (Nat.mod_lt _ (by positivity)), hnext, hpoint]
    exact heval

/-- A module that divides a secret register by a trace register. -/
def ratioText : List Char :=
  "(module (field prime 340282366920938463463374607393113505793)
    (static (input secret vector (steps 4)) (cycle 1 2))
    (transition (span 1) (result vector 1) (load.trace 0))
    (evaluation (span 2) (result vector 1)
      (vector (sub (get (load.trace 1) 0)
        (div (get (load.static 0) 0) (get (load.trace 0) 0))))))".toList

/-- Its input: two values of the secret register. -/
def ratioTrees : List InputTree :=
  [.list [.value 5, .value 6]]

/-- Its evaluation procedure. -/
def ratioConstraint : Block :=
  let get (source : Source) (row width : Nat) : Expr :=
    .node (.get 0) .scalar [.node (.load source row) (.vector width) []]
  ⟨[], [], .node .vector (.vector 1) [.node (.binary .sub) .scalar [get .trace 1 1,
    .node (.binary .div) .scalar [get .static 0 2, get .trace 0 1]]]⟩

/-- A trace polynomial without zeros among the roots of unity. -/
def ratioPolys : Columns :=
  [[0, 1, 0, 0, 0, 0, 0, 0]]

/-- Its constraint over the 32 points of the composition domain, from every fourth of the 128 points
of the evaluation domain. -/
theorem constraints_from_extensions_ratio :
    ∃ s m p q v extended,
      compile ratioText { inverseDegreeCost := some 2, sharing := { enabled := false } } = .ok s
      ∧ Machine.ofSchema s { extensionFactor := some 16 } = .ok m
      ∧ ofInputs m ratioTrees = .ok p ∧ p.constraints ratioPolys = .ok q
      ∧ Verifier.ofInputs m [[2]] [] = .ok v ∧ p.extend ratioPolys = .ok extended
      ∧ (∀ c ∈ extended ++ p.secretColumns, c.length = 128)
      ∧ ∀ j < 32, p.composition.point j = p.evaluation.point (j * 4)
        ∧ ∃ row, v.constraintsAt (p.composition.point j) (extended.row (j * 4))
            (extended.row ((j + 4) * 4 % 128)) (p.secretColumns.row (j * 4)) = .ok row
          ∧ q.map (·[j]?) = row.map some := by
  have hcheck : ((compile ratioText
      { inverseDegreeCost := some 2, sharing := { enabled := false } }).toOption.any fun s =>
      s.evaluation.body.block.toBody == ratioConstraint.toBody
      && (Machine.ofSchema s { extensionFactor := some 16 }).toOption.any fun m =>
        m.traceWidth == 1 && m.statics.length == 2 && m.constraintCount == 1
        && m.compositionFactor == 4 && m.stride == 4
        && ((inputValues (m.inputs.zip ratioTrees)).toOption.any fun inputs =>
          inputs.map Prod.fst == [[2]])
        && m.inputs.map InputSlot.secret == [true]
        && (ofInputs m ratioTrees).toOption.any fun p =>
          p.traceLength == 8 && p.composition.size == 32 && p.evaluation.size == 128) = true := by
    unfold ratioText
    rewrite [String.toList_ofList]
    decide +kernel
  simp only [Option.any_eq_true, Bool.and_eq_true, beq_iff_eq, toOption_eq_some] at hcheck
  obtain ⟨s, hs, hevaluation, m, hm, ⟨⟨⟨⟨⟨⟨hwidth, hstatics⟩, hcount⟩, hfactor⟩, hstride⟩, inputs,
    hinputs, hshapes⟩, hsecret⟩, p, hp, ⟨hlength, hcomposition⟩, hsize⟩ := hcheck
  obtain ⟨inputs', layout, hb⟩ := ofInputs_eq_ok hp
  obtain ⟨-, rules, ext, -, -, hassemble⟩ := Machine.ofSchema_eq_ok hm
  have hconstraint : m.evaluationBlock = ratioConstraint := by
    rw [hassemble, ← Block.toBody_block ratioConstraint, ← hevaluation, Block.toBody_block]
    rfl
  have hrow (x : Element) : [x].length = m.traceWidth := hwidth.symm
  have hvalues (k k' : Element) : [k, k'].length = m.statics.length := hstatics.symm
  have hevaluates (x y k k' : Element) (hx : x ≠ 0) :
      ∃ v, m.evaluate [x] [y] [k, k'] = .ok v := by
    refine ⟨[y - k * x.inv], ?_⟩
    rw [Machine.evaluate_eq (hrow x) (hrow y) (hvalues k k'), hconstraint, hcount]
    have hdiv : Value.div (.scalar k) (.scalar x) = .ok (.scalar (k * x.inv)) := by
      have hinverse : Value.inverse x = .ok x.inv := if_neg hx
      change Tensor.scalar <$> (Value.inverse x >>= fun r => pure (k * r)) = _
      rw [hinverse]
      rfl
    change ((([Value.div (.scalar k) (.scalar x) >>= Value.sub (.scalar y)].mapM id
      >>= Value.concat) >>= Value.asVector) >>= _) = _
    rw [hdiv]
    rfl
  have hpolys : p.checkPolynomials ratioPolys = .ok () := by
    refine if_pos ⟨?_, ?_⟩
    · rw [hb.machine_eq, hwidth]
      rfl
    · rw [hlength]
      rfl
  have hconstraints : ∃ q, p.constraints ratioPolys = .ok q := by
    apply exists_constraints_of_points hpolys
    intro j hj
    have hpoint : Columns.row (ratioPolys.map (Transform.extend p.composition.size)) j =
        [Element.rootOfUnity 5 ^ j] := by
      have hvalue := Columns.row_extend (k := 5) (by decide)
        (by decide : ∀ c ∈ ratioPolys, c.length ≤ 2 ^ 5) (hcomposition ▸ hj)
      rw [hcomposition]
      refine hvalue.trans ?_
      simp [ratioPolys, Transform.eval]
    have hnonzero : Element.rootOfUnity 5 ^ j ≠ 0 :=
      pow_ne_zero j ((Element.rootOfUnity_isPrimitiveRoot (by decide)).ne_zero (by decide))
    rw [hpoint, hb.machine_eq]
    have hwidths : (Columns.row (p.statics.map fun c =>
        Transform.extend p.composition.size (Transform.interpolate c)) j).length = 2 := by
      rw [Columns.row, List.length_map, List.length_map, hb.length_statics, hstatics]
    obtain ⟨k, k', hk⟩ := List.length_eq_two.1 hwidths
    rw [hk]
    exact hevaluates _ _ k k' hnonzero
  obtain ⟨q, hq⟩ := hconstraints
  obtain ⟨inputs'', v, extended, hinputs'', hv, hextended, hlengths, hrows⟩ :=
    constraints_from_extensions hs hm hp hq
  obtain rfl := Except.ok.inj (hinputs.symm.trans hinputs'')
  have hpublic : m.publicTrees ratioTrees = [] := by
    obtain ⟨slot, slots, hslots, hslot, hrest⟩ := List.map_eq_cons_iff.1 hsecret
    simp [Machine.publicTrees, ratioTrees, hslots, hslot]
  rw [hshapes, hpublic] at hv
  rw [hsize] at hlengths
  rw [hcomposition, hsize, hfactor, hstride] at hrows
  exact ⟨s, m, p, q, v, extended, hs, hm, hp, hq, hv, hextended, hlengths, fun j hj =>
    (hrows j hj).2⟩

end Prover

end Arithmetization
