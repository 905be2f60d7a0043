import Arithmetization.Expr.Rule
import Arithmetization.Proofs.Counts

/-!
What the shape rules say.

For every operator the rule that computes a shape is compared with a statement of when operands fit:
elementwise operators take equal shapes or a scalar beside anything (`Shape.Broadcasts`), a product
takes vectors and matrices with equal inner lengths (`Shape.Multiplies`), a vector is made of
scalars and vectors (`Shape.IsPart`). Each comparison is an equivalence, so a rule refuses nothing
that the statement allows, and no other module has to open a rule.
-/

set_option autoImplicit false

namespace Arithmetization

namespace Shape

theorem isMatrix_iff (s : Shape) :
    s.isMatrix = true ↔ ∃ r c, 0 < r ∧ 0 < c ∧ s = matrix r c := by
  rw [isMatrix, Bool.and_eq_true, decide_eq_true_eq, decide_eq_true_eq]
  constructor
  · intro h
    exact ⟨s.rows, s.cols, h.1, h.2, rfl⟩
  · rintro ⟨r, c, hr, hc, rfl⟩
    exact ⟨hr, hc⟩

/-- The shapes of the operands of an elementwise operator and of its result. -/
inductive Broadcasts : Shape → Shape → Shape → Prop
  | same (s : Shape) : Broadcasts s s s
  | scalarRight (s : Shape) : Broadcasts s .scalar s
  | scalarLeft (s : Shape) : Broadcasts .scalar s s

/-- The shapes of the factors of a product and of their product. -/
inductive Multiplies : Shape → Shape → Shape → Prop
  | vectors {n : Nat} (hn : 0 < n) : Multiplies (.vector n) (.vector n) .scalar
  | matrixVector {r k : Nat} (hr : 0 < r) (hk : 0 < k) :
      Multiplies (.matrix r k) (.vector k) (.vector r)
  | matrices {r k c : Nat} (hr : 0 < r) (hk : 0 < k) (hc : 0 < c) :
      Multiplies (.matrix r k) (.matrix k c) (.matrix r c)

/-- The shapes of what a vector is put together from. -/
def IsPart (s : Shape) : Prop :=
  s = .scalar ∨ ∃ n, 0 < n ∧ s = .vector n

theorem size_vector {n : Nat} (hn : 0 < n) : (vector n).size = n := by
  simp [size, vector, Nat.ne_of_gt hn]

theorem IsPart.size_pos {s : Shape} (h : s.IsPart) : 0 < s.size := by
  rcases h with rfl | ⟨n, hn, rfl⟩
  · decide
  · rwa [size_vector hn]

/-- Parts have at least one element each, so only no parts at all have none together. -/
theorem sum_size_pos {shapes : List Shape} (hne : shapes ≠ []) (h : ∀ s ∈ shapes, s.IsPart) :
    0 < (shapes.map size).sum := by
  obtain ⟨s, rest, rfl⟩ := List.exists_cons_of_ne_nil hne
  have hs := (h s (List.mem_cons_self ..)).size_pos
  rw [List.map_cons, List.sum_cons]
  omega

end Shape

namespace Rule

theorem elementwise_eq_ok {op : BinaryOp} {l r s : Shape} :
    elementwise op l r = .ok s ↔ Shape.Broadcasts l r s := by
  constructor
  · intro h
    unfold elementwise at h
    split at h
    · next hlr =>
      obtain rfl := Except.ok.inj h
      rw [Bool.or_eq_true, decide_eq_true_eq, Shape.isScalar_iff] at hlr
      rcases hlr with rfl | rfl
      exacts [.same l, .scalarRight l]
    split at h
    · next hl =>
      obtain rfl := Except.ok.inj h
      obtain rfl := (Shape.isScalar_iff l).1 hl
      exact .scalarLeft r
    · cases h
  · intro h
    cases h with
    | same s => rw [elementwise, decide_eq_true rfl, Bool.true_or, if_pos rfl]
    | scalarRight s => rw [elementwise, Shape.isScalar_scalar, Bool.or_true, if_pos rfl]
    | scalarLeft s =>
      -- a scalar beside a scalar is met by the first test already
      unfold elementwise
      split
      · next hs =>
        rw [Bool.or_eq_true, decide_eq_true_eq, Shape.isScalar_iff] at hs
        rcases hs with rfl | rfl <;> rfl
      · rfl

theorem product_eq_ok {l r s : Shape} : product l r = .ok s ↔ Shape.Multiplies l r s := by
  constructor
  · intro h
    unfold product at h
    split at h
    · next hlr =>
      simp only [Bool.and_eq_true, beq_iff_eq] at hlr
      obtain rfl := Except.ok.inj h
      obtain ⟨n, hn, rfl⟩ := (Shape.isVector_iff l).1 hlr.1.1
      obtain ⟨m, -, rfl⟩ := (Shape.isVector_iff r).1 hlr.1.2
      obtain rfl : n = m := hlr.2
      exact .vectors hn
    split at h
    · next hlr =>
      simp only [Bool.and_eq_true, beq_iff_eq] at hlr
      obtain rfl := Except.ok.inj h
      obtain ⟨a, k, ha, hk, rfl⟩ := (Shape.isMatrix_iff l).1 hlr.1.1
      obtain ⟨m, -, rfl⟩ := (Shape.isVector_iff r).1 hlr.1.2
      obtain rfl : k = m := hlr.2
      exact .matrixVector ha hk
    split at h
    · next hlr =>
      simp only [Bool.and_eq_true, beq_iff_eq] at hlr
      obtain rfl := Except.ok.inj h
      obtain ⟨a, k, ha, hk, rfl⟩ := (Shape.isMatrix_iff l).1 hlr.1.1
      obtain ⟨m, c, -, hc, rfl⟩ := (Shape.isMatrix_iff r).1 hlr.1.2
      obtain rfl : k = m := hlr.2
      exact .matrices ha hk hc
    · cases h
  · intro h
    cases h with
    | vectors hn => simp [product, Shape.isVector, Shape.vector, hn]
    | matrixVector hr hk =>
      simp [product, Shape.isVector, Shape.isMatrix, Shape.vector, Shape.matrix, hr, hk,
        Nat.ne_of_gt hk]
    | matrices hr hk hc =>
      simp [product, Shape.isVector, Shape.isMatrix, Shape.matrix, hr, hk, hc, Nat.ne_of_gt hk,
        Nat.ne_of_gt hc]

theorem power_eq_ok {base exponent s : Shape} {known : Bool} :
    power base exponent known = .ok s ↔ exponent = .scalar ∧ known = true ∧ s = base := by
  unfold power
  constructor
  · intro h
    split at h
    · next hexp =>
      rw [Bool.and_eq_true, Shape.isScalar_iff] at hexp
      exact ⟨hexp.1, hexp.2, (Except.ok.inj h).symm⟩
    · cases h
  · rintro ⟨rfl, rfl, rfl⟩
    rfl

/-- Operators that work element by element. -/
def IsElementwise (op : BinaryOp) : Prop :=
  op = .add ∨ op = .sub ∨ op = .mul ∨ op = .div

/-- The rule of a binary operator, by the three kinds of operators. -/
theorem binary_eq_ok {op : BinaryOp} {l r s : Shape} {known : Bool} :
    binary op l r known = .ok s ↔
      (IsElementwise op ∧ Shape.Broadcasts l r s)
        ∨ (op = .exp ∧ known = true ∧ r = .scalar ∧ s = l)
        ∨ (op = .prod ∧ Shape.Multiplies l r s) := by
  cases op with
  | exp => simp [binary, IsElementwise, power_eq_ok, and_left_comm]
  | prod => simp [binary, IsElementwise, product_eq_ok]
  | _ => simp [binary, IsElementwise, elementwise_eq_ok]

theorem appendLength_part (o : Overflow) (n : Nat) {part : Shape} (h : part.IsPart) :
    appendLength o n part = (o.add n part.size).mapError .stop := by
  rcases h with rfl | ⟨k, hk, rfl⟩
  · rfl
  · have hvector := (Shape.isVector_iff (.vector k)).2 ⟨k, hk, rfl⟩
    have hscalar : ¬(Shape.vector k).isScalar = true := fun hscalar =>
      absurd (congrArg Shape.rows ((Shape.isScalar_iff _).1 hscalar)) (Nat.ne_of_gt hk)
    rw [appendLength, if_neg hscalar, if_pos hvector, Shape.size_vector hk]
    rfl

/-- What is appended is a part. -/
theorem isPart_of_appendLength {o : Overflow} {n m : Nat} {part : Shape}
    (h : appendLength o n part = .ok m) : part.IsPart := by
  unfold appendLength at h
  split at h
  · next hscalar => exact .inl ((Shape.isScalar_iff part).1 hscalar)
  split at h
  · next hvector => exact .inr ((Shape.isVector_iff part).1 hvector)
  · cases h

/-- **The length of parts together** is what is kept of the sum of their lengths. -/
theorem foldlM_appendLength {o : Overflow} {parts : List Shape} (h : ∀ s ∈ parts, s.IsPart)
    {n : Nat} (hn : o.keep n = .ok n) :
    parts.foldlM (appendLength o) n
      = (o.keep (n + (parts.map Shape.size).sum)).mapError .stop := by
  rw [← Overflow.foldlM_add hn]
  clear hn
  induction parts generalizing n with
  | nil => rfl
  | cons s parts ih =>
    rw [List.forall_mem_cons] at h
    rw [List.map_cons, List.foldlM_cons, List.foldlM_cons, appendLength_part o n h.1]
    cases o.add n s.size with
    | error e => rfl
    | ok m => exact ih h.2

theorem isPart_of_foldlM {o : Overflow} {parts : List Shape} {n m : Nat}
    (h : parts.foldlM (appendLength o) n = .ok m) : ∀ s ∈ parts, s.IsPart := by
  induction parts generalizing n with
  | nil => exact List.forall_mem_nil _
  | cons s parts ih =>
    rw [List.foldlM_cons] at h
    obtain ⟨k, hk, h⟩ := bind_eq_ok.1 h
    exact List.forall_mem_cons.2 ⟨isPart_of_appendLength hk, ih h⟩

/-- Parts in range make a vector of their lengths together, whatever an overflow does; parts out of
range are refused only where an overflow stops the run. -/
theorem concat_eq_ok_iff {o : Overflow} {shapes : List Shape} {s : Shape} :
    concat o shapes = .ok s ↔ (∀ t ∈ shapes, t.IsPart)
      ∧ ∃ n, o.keep (shapes.map Shape.size).sum = .ok n ∧ 0 < n ∧ s = .vector n := by
  rw [concat, bind_eq_ok]
  constructor
  · rintro ⟨n, hn, h⟩
    have hparts := isPart_of_foldlM hn
    rw [foldlM_appendLength hparts o.keep_zero, Nat.zero_add, mapError_eq_ok] at hn
    split at h
    · cases h
    · next hne => exact ⟨hparts, n, hn, Nat.pos_of_ne_zero hne, (Except.ok.inj h).symm⟩
  · rintro ⟨hparts, n, hn, hpos, rfl⟩
    refine ⟨n, ?_, if_neg (Nat.ne_of_gt hpos)⟩
    rw [foldlM_appendLength hparts o.keep_zero, Nat.zero_add, mapError_eq_ok]
    exact hn

theorem concat_eq_ok {shapes : List Shape} {s : Shape} :
    concat .trap shapes = .ok s ↔ shapes ≠ [] ∧ (∀ t ∈ shapes, t.IsPart)
      ∧ (shapes.map Shape.size).sum < Shape.lengthBound
      ∧ s = .vector (shapes.map Shape.size).sum := by
  rw [concat_eq_ok_iff]
  constructor
  · rintro ⟨hparts, n, hn, hpos, rfl⟩
    obtain ⟨hlt, rfl⟩ := Overflow.keep_trap_eq_ok.1 hn
    refine ⟨?_, hparts, hlt, rfl⟩
    rintro rfl
    exact absurd hpos (by decide)
  · rintro ⟨hne, hparts, hlt, rfl⟩
    exact ⟨hparts, _, Overflow.keep_of_lt _ hlt, Shape.sum_size_pos hne hparts, rfl⟩

theorem grid_eq_ok {rows : List (List Shape)} {s : Shape} :
    grid rows = .ok s ↔ rows ≠ [] ∧ ∃ cols, 0 < cols ∧ (∀ row ∈ rows, row.length = cols)
      ∧ (∀ t ∈ rows.flatten, t = .scalar) ∧ s = .matrix rows.length cols := by
  constructor
  · intro h
    unfold grid at h
    dsimp only at h
    split at h
    · cases h
    next hrows =>
    split at h
    · cases h
    next hscalars =>
    simp only [Bool.or_eq_true, List.isEmpty_iff, beq_iff_eq, List.any_eq_true, bne_iff_ne, not_or,
      not_exists, not_and, ne_eq, Decidable.not_not] at hrows
    simp only [List.any_eq_true, Bool.not_eq_true', not_exists, not_and, Bool.not_eq_false]
      at hscalars
    refine ⟨hrows.1.1, _, Nat.pos_of_ne_zero hrows.1.2, hrows.2, ?_, (Except.ok.inj h).symm⟩
    intro t ht
    obtain ⟨row, hrow, ht⟩ := List.mem_flatten.1 ht
    exact (Shape.isScalar_iff t).1 (hscalars row hrow t ht)
  · rintro ⟨hne, cols, hcols, hrows, hscalars, rfl⟩
    obtain ⟨row, rest, rfl⟩ := List.exists_cons_of_ne_nil hne
    obtain rfl := hrows row (List.mem_cons_self ..)
    have hragged : ((row :: rest).any fun r => r.length != row.length) = false := by
      rw [List.any_eq_false]
      intro r hr
      simpa using hrows r hr
    have hother : ((row :: rest).any fun r => r.any fun t => !t.isScalar) = false := by
      rw [List.any_eq_false]
      intro r hr
      rw [Bool.not_eq_true, List.any_eq_false]
      intro t ht
      rw [hscalars t (List.mem_flatten.2 ⟨r, hr, ht⟩)]
      decide
    rw [grid]
    simp only [List.head?_cons, Option.map_some, Option.getD_some, List.isEmpty_cons, hragged,
      hother, Bool.false_or, Bool.or_false, beq_iff_eq, Nat.ne_of_gt hcols, if_false,
      Bool.false_eq_true]

theorem element_eq_ok {source s : Shape} {i : Nat} :
    element source i = .ok s ↔ ∃ n, source = .vector n ∧ i < n ∧ s = .scalar := by
  constructor
  · intro h
    unfold element at h
    split at h
    · cases h
    next hvector =>
    split at h
    · cases h
    next hlt =>
    obtain ⟨n, -, rfl⟩ := (Shape.isVector_iff source).1 (by simpa using hvector)
    exact ⟨n, rfl, Nat.lt_of_not_le hlt, (Except.ok.inj h).symm⟩
  · rintro ⟨n, rfl, hlt, rfl⟩
    have hvector := (Shape.isVector_iff (.vector n)).2 ⟨n, by omega, rfl⟩
    rw [element, hvector, if_neg (by decide)]
    exact if_neg (Nat.not_le.2 hlt)

theorem slice_eq_ok {source s : Shape} {first last : Nat} :
    slice source first last = .ok s ↔
      ∃ n, source = .vector n ∧ first ≤ last ∧ last < n ∧ s = .vector (last - first + 1) := by
  constructor
  · intro h
    unfold slice at h
    split at h
    · cases h
    next hvector =>
    split at h
    · cases h
    next hbounds =>
    obtain ⟨n, -, rfl⟩ := (Shape.isVector_iff source).1 (by simpa using hvector)
    rw [Bool.or_eq_true, decide_eq_true_eq, decide_eq_true_eq, not_or, Nat.not_lt,
      Nat.not_le] at hbounds
    exact ⟨n, rfl, hbounds.1, hbounds.2, (Except.ok.inj h).symm⟩
  · rintro ⟨n, rfl, hle, hlt, rfl⟩
    have hvector := (Shape.isVector_iff (.vector n)).2 ⟨n, by omega, rfl⟩
    have hbounds : ¬ (decide (last < first) || decide ((Shape.vector n).rows ≤ last)) = true := by
      rw [Bool.or_eq_true, decide_eq_true_eq, decide_eq_true_eq, not_or, Nat.not_lt, Nat.not_le]
      exact ⟨hle, hlt⟩
    rw [slice, hvector, if_neg (by decide), if_neg hbounds]

/-- No argument differs from its parameter exactly if the arguments are the parameters. -/
theorem mismatch?_eq_none {f index : Nat} {args params : List Shape}
    (hlen : args.length = params.length) :
    mismatch? f index args params = none ↔ args = params := by
  induction args generalizing params index with
  | nil =>
    obtain rfl := List.length_eq_zero_iff.1 hlen.symm
    exact iff_of_true rfl rfl
  | cons a args ih =>
    obtain ⟨p, params, rfl⟩ := List.exists_cons_of_length_eq_add_one hlen.symm
    rw [mismatch?, List.cons.injEq]
    split
    · next hap => rw [ih (Nat.succ.inj hlen), and_iff_right hap]
    · next hap => exact iff_of_false (by simp) fun h => hap h.1

theorem call_eq_ok {f : Nat} {signature : Signature} {args : List Shape} {s : Shape} :
    call f signature args = .ok s ↔ args = signature.params ∧ s = signature.result := by
  unfold call
  by_cases hlen : args.length = signature.params.length
  · rw [if_neg (not_not.2 hlen), ← @mismatch?_eq_none f 0 _ _ hlen]
    cases mismatch? f 0 args signature.params with
    | some cause => simp
    | none => simp [eq_comm]
  · rw [if_pos hlen]
    exact iff_of_false (by simp) fun h => hlen (congrArg List.length h.1)

end Rule

end Arithmetization
