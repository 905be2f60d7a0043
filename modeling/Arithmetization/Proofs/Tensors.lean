import Arithmetization.Proofs.ShapeRules

/-!
Tensors of a shape, and tensors related place by place.

`Tensor.Fits` is what a shape promises of a tensor: it is not empty, and a matrix has rows of one
length. `Tensor.Rel` relates two tensors element by element; related tensors fit the same shapes, so
what is proved about the shape of one carries over to the other.
-/

set_option autoImplicit false

namespace Arithmetization

/-- A pair of lengths that is a shape: without rows there are no columns. -/
def Shape.Valid (s : Shape) : Prop :=
  s.rows = 0 → s.cols = 0

namespace Tensor

variable {α β γ δ : Type}

/-! ## Shapes -/

/-- A tensor of a given shape. -/
def Fits : Tensor α → Shape → Prop
  | .scalar _, s => s = .scalar
  | .vector xs, s => 0 < xs.length ∧ s = .vector xs.length
  | .matrix rows, s =>
    0 < rows.length ∧ 0 < s.cols ∧ s.rows = rows.length ∧ ∀ r ∈ rows, r.length = s.cols

theorem fits_scalar {t : Tensor α} : t.Fits .scalar ↔ ∃ x, t = .scalar x := by
  constructor
  · intro h
    cases t with
    | scalar x => exact ⟨x, rfl⟩
    | vector xs =>
      have hlen : 0 = xs.length := congrArg Shape.rows h.2
      have := h.1
      omega
    | matrix rows => exact absurd h.2.1 (Nat.lt_irrefl 0)
  · rintro ⟨x, rfl⟩
    rfl

theorem Fits.of_isVector {t : Tensor α} {s : Shape} (h : t.Fits s) (hs : s.isVector = true) :
    ∃ xs, t = .vector xs ∧ xs.length = s.rows := by
  obtain ⟨n, hn, rfl⟩ := (Shape.isVector_iff s).1 hs
  cases t with
  | scalar x =>
    have : n = 0 := congrArg Shape.rows h
    omega
  | vector xs => exact ⟨xs, rfl, (congrArg Shape.rows h.2).symm⟩
  | matrix rows => exact absurd h.2.1 (Nat.lt_irrefl 0)

/-- A tensor of the shape of a vector is one, of that length. -/
theorem Fits.of_vector {t : Tensor α} {n : Nat} (h : t.Fits (.vector n)) (hn : 0 < n) :
    ∃ xs, t = .vector xs ∧ xs.length = n :=
  h.of_isVector ((Shape.isVector_iff _).2 ⟨n, hn, rfl⟩)

theorem Fits.of_isMatrix {t : Tensor α} {s : Shape} (h : t.Fits s) (hs : s.isMatrix = true) :
    ∃ rows, t = .matrix rows ∧ rows.length = s.rows ∧ ∀ r ∈ rows, r.length = s.cols := by
  simp only [Shape.isMatrix, Bool.and_eq_true, decide_eq_true_eq] at hs
  cases t with
  | scalar x =>
    obtain rfl : s = .scalar := h
    exact absurd hs.1 (Nat.lt_irrefl 0)
  | vector xs =>
    rw [h.2] at hs
    exact absurd hs.2 (Nat.lt_irrefl 0)
  | matrix rows => exact ⟨rows, rfl, h.2.2.1.symm, h.2.2.2⟩

/-- A tensor of the shape of a matrix is one, with rows of that length. -/
theorem Fits.of_matrix {t : Tensor α} {r c : Nat} (h : t.Fits (.matrix r c)) (hr : 0 < r)
    (hc : 0 < c) : ∃ rows, t = .matrix rows ∧ rows.length = r ∧ ∀ row ∈ rows, row.length = c :=
  h.of_isMatrix ((Shape.isMatrix_iff _).2 ⟨r, c, hr, hc, rfl⟩)

/-- The first row of a matrix has as many elements as the matrix has columns. -/
theorem Fits.head_cols {rows : List (List α)} {s : Shape} (h : (Tensor.matrix rows).Fits s) :
    (rows.head?.map List.length).getD 0 = s.cols := by
  cases rows with
  | nil => exact absurd h.1 (Nat.lt_irrefl 0)
  | cons row rows => exact h.2.2.2 row (List.mem_cons_self ..)

/-- The shape that a tensor fits is its own. -/
theorem Fits.shape_eq {t : Tensor α} {s : Shape} (h : t.Fits s) : t.shape = s := by
  cases t with
  | scalar x => exact Eq.symm h
  | vector xs => exact h.2.symm
  | matrix rows =>
    rw [shape, h.head_cols, ← h.2.2.1]
    rfl

theorem fits_vector {xs : List α} (h : 0 < xs.length) :
    (Tensor.vector xs).Fits (.vector xs.length) :=
  ⟨h, rfl⟩

theorem fits_matrix {rows : List (List α)} {cols : Nat} (hrows : 0 < rows.length) (hcols : 0 < cols)
    (h : ∀ r ∈ rows, r.length = cols) : (Tensor.matrix rows).Fits (.matrix rows.length cols) :=
  ⟨hrows, hcols, rfl, h⟩

@[simp] theorem fits_map {t : Tensor α} {f : α → β} {s : Shape} : (t.map f).Fits s ↔ t.Fits s := by
  cases t with
  | scalar x => exact Iff.rfl
  | vector xs => simp only [map, Fits, List.length_map]
  | matrix rows => simp [map, Fits, List.length_map]

/-- A literal that was accepted fits its own shape. -/
theorem fits_of_isProper {l : Literal} (h : l.isProper = true) : l.Fits l.shape := by
  cases l with
  | scalar n => rfl
  | vector xs =>
    cases xs with
    | nil => cases h
    | cons x xs => exact fits_vector (Nat.succ_pos _)
  | matrix rows =>
    cases rows with
    | nil => cases h
    | cons row rows =>
      simp only [Literal.isProper, List.head?_cons, Option.map_some, Option.getD_some,
        Bool.and_eq_true, bne_iff_ne, ne_eq, List.all_eq_true, beq_iff_eq] at h
      exact fits_matrix (Nat.succ_pos _) (Nat.pos_of_ne_zero h.1.2) h.2

theorem Fits.valid {t : Tensor α} {s : Shape} (h : t.Fits s) : s.Valid := by
  cases t with
  | scalar x => exact fun _ => congrArg Shape.cols (show s = .scalar from h)
  | vector xs => exact fun _ => congrArg Shape.cols h.2
  | matrix rows =>
    intro hrows
    have := h.1
    have := h.2.2.1
    omega

theorem fits_uniform {s : Shape} (h : s.Valid) (x : α) : (uniform s x).Fits s := by
  unfold uniform
  split
  · next hs => exact (Shape.isScalar_iff s).1 hs
  next hs =>
  split
  · next hv =>
    obtain ⟨n, hn, rfl⟩ := (Shape.isVector_iff s).1 hv
    exact ⟨by simpa [Shape.vector] using hn, by simp [Shape.vector]⟩
  · next hv =>
    simp only [Shape.isScalar, Shape.isVector, Bool.and_eq_true, beq_iff_eq, decide_eq_true_eq,
      not_and] at hs hv
    have hrows : 0 < s.rows := Nat.pos_of_ne_zero fun h0 => hs h0 (h h0)
    refine ⟨by simpa using hrows, Nat.pos_of_ne_zero (hv hrows), by simp, fun r hr => ?_⟩
    rw [List.eq_of_mem_replicate hr, List.length_replicate]

/-! ## Maps -/

theorem map_map (f : α → β) (g : β → γ) (t : Tensor α) :
    (t.map f).map g = t.map fun x => g (f x) := by
  cases t <;> simp [map, Function.comp_def]

theorem mapM_map {m : Type → Type} [Monad m] [LawfulMonad m] (f : α → β) (g : β → m γ)
    (t : Tensor α) : (t.map f).mapM g = t.mapM fun x => g (f x) := by
  cases t with
  | scalar x => rfl
  | vector xs =>
    rw [map, mapM, mapM, List.mapM_map]
    rfl
  | matrix rows =>
    rw [map, mapM, mapM, List.mapM_map]
    congr 2
    funext row
    exact List.mapM_map

/-- A tensor whose elements are all alike is the uniform one of its shape. -/
theorem map_eq_uniform {t : Tensor α} {s : Shape} (h : t.Fits s) {f : α → β} {y : β}
    (hf : ∀ x ∈ t.elements, f x = y) : t.map f = uniform s y := by
  have hlist : ∀ xs : List α, (∀ x ∈ xs, f x = y) → xs.map f = List.replicate xs.length y :=
    fun xs hxs => List.eq_replicate_iff.2 ⟨List.length_map .., by simpa using hxs⟩
  unfold uniform
  cases t with
  | scalar x =>
    obtain rfl : s = .scalar := h
    rw [if_pos (by rfl), map, hf x (List.mem_singleton.2 rfl)]
  | vector xs =>
    obtain ⟨hpos, rfl⟩ := h
    have hvector := (Shape.isVector_iff _).2 ⟨_, hpos, rfl⟩
    have hscalar : ¬ (Shape.vector xs.length).isScalar = true := by
      rw [Shape.isScalar_iff]
      intro hs
      have : xs.length = 0 := congrArg Shape.rows hs
      omega
    rw [if_neg hscalar, if_pos hvector, map, hlist xs hf]
    rfl
  | matrix rows =>
    obtain ⟨hpos, hcols, hrows, hlen⟩ := h
    have hscalar : ¬ s.isScalar = true := by
      rw [Shape.isScalar_iff]
      rintro rfl
      exact absurd hcols (Nat.lt_irrefl 0)
    have hvector : ¬ s.isVector = true := by
      rw [Shape.isVector_iff]
      rintro ⟨n, -, rfl⟩
      exact absurd hcols (Nat.lt_irrefl 0)
    have hmap : ∀ row ∈ rows, row.map f = List.replicate s.cols y := by
      intro row hrow
      rw [hlist row fun x hx => hf x (List.mem_flatten.2 ⟨row, hrow, hx⟩), hlen row hrow]
    rw [if_neg hscalar, if_neg hvector, map, List.map_congr_left hmap, List.map_const', hrows]

/-! ## Combining two tensors -/

theorem align_map (f : α → γ) (g : β → δ) (a : Tensor α) (b : Tensor β) :
    align (a.map f) (b.map g) = (align a b).map (·.map (Prod.map f g)) := by
  have hzip : ∀ (xs : List α) (ys : List β),
      (xs.map f).zip (ys.map g) = (xs.zip ys).map (Prod.map f g) := fun xs ys => List.zip_map ..
  cases a with
  | scalar x => cases b <;> simp [map, align]
  | vector xs =>
    cases b with
    | scalar y => simp [map, align]
    | matrix rows => rfl
    | vector ys =>
      simp only [map, align, List.length_map, hzip]
      split <;> rfl
  | matrix rows =>
    cases b with
    | scalar y => simp [map, align]
    | vector ys => rfl
    | matrix rows' =>
      have hrows : List.zipWith List.zip (rows.map (·.map f)) (rows'.map (·.map g))
          = (List.zipWith List.zip rows rows').map (·.map (Prod.map f g)) := by
        rw [List.zipWith_map, List.map_zipWith]
        simp only [hzip]
      simp only [map, align, List.length_map, hrows]
      split <;> rfl

theorem sameRows_map (f : α → γ) (g : β → δ) (a : Tensor α) (b : Tensor β) :
    sameRows (a.map f) (b.map g) = sameRows a b := by
  cases a <;> cases b <;> simp [map, sameRows, Function.comp_def]

theorem align_scalar_left (x : α) (b : Tensor β) : align (.scalar x) b = some (b.map (x, ·)) := by
  cases b <;> rfl

theorem align_scalar_right (a : Tensor α) (y : β) : align a (.scalar y) = some (a.map (·, y)) := by
  cases a <;> rfl

theorem mem_align {a : Tensor α} {b : Tensor β} {p : Tensor (α × β)} (h : align a b = some p)
    {xy : α × β} (hxy : xy ∈ p.elements) : xy.1 ∈ a.elements ∧ xy.2 ∈ b.elements := by
  by_cases ha : ∃ x, a = .scalar x
  · obtain ⟨x, rfl⟩ := ha
    rw [align_scalar_left] at h
    obtain rfl := Option.some.inj h
    rw [elements_map] at hxy
    obtain ⟨y, hy, rfl⟩ := List.mem_map.1 hxy
    exact ⟨List.mem_singleton.2 rfl, hy⟩
  by_cases hb : ∃ y, b = .scalar y
  · obtain ⟨y, rfl⟩ := hb
    rw [align_scalar_right] at h
    obtain rfl := Option.some.inj h
    rw [elements_map] at hxy
    obtain ⟨x, hx, rfl⟩ := List.mem_map.1 hxy
    exact ⟨hx, List.mem_singleton.2 rfl⟩
  -- two vectors or two matrices
  cases a with
  | scalar x => exact absurd ⟨x, rfl⟩ ha
  | vector xs =>
    cases b with
    | scalar y => exact absurd ⟨y, rfl⟩ hb
    | matrix rows => cases h
    | vector ys =>
      simp only [align] at h
      split at h
      · obtain rfl := Option.some.inj h
        exact List.of_mem_zip hxy
      · cases h
  | matrix rows =>
    cases b with
    | scalar y => exact absurd ⟨y, rfl⟩ hb
    | vector ys => cases h
    | matrix rows' =>
      simp only [align] at h
      split at h
      · obtain rfl := Option.some.inj h
        obtain ⟨row, hrow, hxy⟩ := List.mem_flatten.1 hxy
        obtain ⟨i, hi, rfl⟩ := List.mem_iff_getElem.1 hrow
        rw [List.getElem_zipWith] at hxy
        obtain ⟨hx, hy⟩ := List.of_mem_zip hxy
        exact ⟨List.mem_flatten.2 ⟨_, List.getElem_mem _, hx⟩,
          List.mem_flatten.2 ⟨_, List.getElem_mem _, hy⟩⟩
      · cases h

/-- Tensors of one shape can be paired. -/
theorem exists_align_of_fits {a : Tensor α} {b : Tensor β} {s : Shape} (ha : a.Fits s)
    (hb : b.Fits s) : ∃ p, align a b = some p ∧ p.Fits s ∧ sameRows a b = true := by
  cases a with
  | scalar x =>
    obtain ⟨y, rfl⟩ := fits_scalar.1 (show b.Fits .scalar from (show s = .scalar from ha) ▸ hb)
    exact ⟨_, rfl, ha, rfl⟩
  | vector xs =>
    obtain ⟨hpos, rfl⟩ := ha
    obtain ⟨ys, rfl, hlen⟩ := hb.of_vector hpos
    have hlen' : xs.length = ys.length := hlen.symm
    refine ⟨_, if_pos hlen', ?_, rfl⟩
    have hzip : (xs.zip ys).length = xs.length := by rw [List.length_zip, ← hlen', Nat.min_self]
    rw [← hzip] at hpos ⊢
    exact fits_vector hpos
  | matrix rows =>
    obtain ⟨hpos, hcols, hrows, hall⟩ := ha
    obtain ⟨rows', rfl, hlen, hall'⟩ := hb.of_isMatrix (by simp [Shape.isMatrix]; omega)
    have hlen' : rows.length = rows'.length := by omega
    refine ⟨_, if_pos hlen', ⟨?_, hcols, ?_, ?_⟩, ?_⟩
    · rw [List.length_zipWith]
      omega
    · rw [List.length_zipWith]
      omega
    · intro r hr
      obtain ⟨i, hi, rfl⟩ := List.mem_iff_getElem.1 hr
      rw [List.getElem_zipWith, List.length_zip, hall _ (List.getElem_mem _),
        hall' _ (List.getElem_mem _), Nat.min_self]
    · rw [sameRows, beq_iff_eq, List.map_congr_left hall, List.map_congr_left hall',
        List.map_const', List.map_const', hlen']

/-- Tensors that the rule for elements accepts can be paired. -/
theorem exists_align {a : Tensor α} {b : Tensor β} {op : BinaryOp} {s t u : Shape} (ha : a.Fits s)
    (hb : b.Fits t) (h : Rule.elementwise op s t = .ok u) :
    ∃ p, align a b = some p ∧ p.Fits u ∧ sameRows a b = true := by
  cases Rule.elementwise_eq_ok.1 h with
  | same => exact exists_align_of_fits ha hb
  | scalarRight =>
    obtain ⟨y, rfl⟩ := fits_scalar.1 hb
    exact ⟨_, align_scalar_right a y, fits_map.2 ha, by cases a <;> rfl⟩
  | scalarLeft =>
    obtain ⟨x, rfl⟩ := fits_scalar.1 ha
    exact ⟨_, align_scalar_left x b, fits_map.2 hb, by cases b <;> rfl⟩

/-! ## Vectors and matrices of parts -/

theorem chunks_map (f : α → β) (ns : List Nat) (xs : List α) :
    chunks ns (xs.map f) = (chunks ns xs).map (·.map f) := by
  induction ns generalizing xs with
  | nil => rfl
  | cons n ns ih => rw [chunks, chunks, List.map_cons, ← List.map_take, ← List.map_drop, ih]

theorem subset_of_mem_chunks {ns : List Nat} {xs row : List α} (h : row ∈ chunks ns xs) :
    row ⊆ xs := by
  induction ns generalizing xs with
  | nil => cases h
  | cons n ns ih =>
    rcases List.mem_cons.1 h with rfl | h
    · exact List.take_subset n xs
    · exact List.Subset.trans (ih h) (List.drop_subset n xs)

theorem chunks_flatten (rows : List (List α)) :
    chunks (rows.map List.length) rows.flatten = rows := by
  induction rows with
  | nil => rfl
  | cons row rows ih =>
    rw [List.map_cons, List.flatten_cons, chunks, List.take_left, List.drop_left, ih]

theorem map_length_chunks {ns : List Nat} {xs : List α} (h : ns.sum ≤ xs.length) :
    (chunks ns xs).map List.length = ns := by
  induction ns generalizing xs with
  | nil => rfl
  | cons n ns ih =>
    rw [List.sum_cons] at h
    rw [chunks, List.map_cons, List.length_take, Nat.min_eq_left (by omega), ih]
    rw [List.length_drop]
    omega

theorem flatten_chunks {ns : List Nat} {xs : List α} (h : xs.length = ns.sum) :
    (chunks ns xs).flatten = xs := by
  induction ns generalizing xs with
  | nil => exact (List.length_eq_zero_iff.1 h).symm
  | cons n ns ih =>
    rw [List.sum_cons] at h
    rw [chunks, List.flatten_cons, ih, List.take_append_drop]
    rw [List.length_drop]
    omega

/-- Elements cut into rows fit the shape of the grid that their shapes are cut into. -/
theorem fits_chunks {widths : List Nat} {shapes : List Shape} {xs : List α} {u : Shape}
    (hsum : shapes.length = widths.sum) (hlen : xs.length = shapes.length)
    (h : Rule.grid (chunks widths shapes) = .ok u) : (Tensor.matrix (chunks widths xs)).Fits u := by
  obtain ⟨hne, cols, hcols, hall, -, rfl⟩ := Rule.grid_eq_ok.1 h
  have hshapes : (chunks widths shapes).map List.length = widths :=
    map_length_chunks (Nat.le_of_eq hsum.symm)
  have hxs : (chunks widths xs).map List.length = widths := map_length_chunks (by omega)
  have hrows : (chunks widths xs).length = (chunks widths shapes).length := by
    rw [← List.length_map List.length, hxs, ← List.length_map List.length, hshapes]
  have hpos := List.length_pos_of_ne_nil hne
  rw [← hrows] at hpos ⊢
  refine fits_matrix hpos hcols fun r hr => ?_
  have hmem : r.length ∈ widths := hxs ▸ List.mem_map_of_mem hr
  rw [← hshapes] at hmem
  obtain ⟨r', hr', heq⟩ := List.mem_map.1 hmem
  rw [← heq, hall r' hr']

theorem scalar_of_grid {widths : List Nat} {shapes : List Shape} {u : Shape}
    (hsum : shapes.length = widths.sum) (h : Rule.grid (chunks widths shapes) = .ok u) :
    ∀ s ∈ shapes, s = .scalar := by
  obtain ⟨-, cols, -, -, hscalar, -⟩ := Rule.grid_eq_ok.1 h
  rwa [flatten_chunks hsum] at hscalar

/-- Scalars have one element each. -/
theorem length_scalars {ts : List (Tensor α)} {shapes : List Shape}
    (hts : List.Forall₂ Fits ts shapes) (h : ∀ s ∈ shapes, s = .scalar) :
    (ts.flatMap elements).length = shapes.length := by
  induction hts with
  | nil => rfl
  | cons ht _ ih =>
    rw [List.forall_mem_cons] at h
    rw [h.1] at ht
    obtain ⟨x, rfl⟩ := fits_scalar.1 ht
    rw [List.flatMap_cons, List.length_append, ih h.2, List.length_cons, Nat.add_comm]
    rfl

/-- Whether a tensor can stand inside a vector. -/
def IsPart : Tensor α → Prop
  | .matrix _ => False
  | _ => True

/-- Tensors of the shapes of parts are parts, of as many elements. -/
theorem length_parts {ts : List (Tensor α)} {shapes : List Shape}
    (hts : List.Forall₂ Fits ts shapes) (h : ∀ s ∈ shapes, s.IsPart) :
    (∀ t ∈ ts, t.IsPart) ∧ (ts.flatMap elements).length = (shapes.map Shape.size).sum := by
  induction hts with
  | nil => exact ⟨by simp, rfl⟩
  | cons ht _ ih =>
    rw [List.forall_mem_cons] at h
    obtain ⟨hparts, hlen⟩ := ih h.2
    rw [List.forall_mem_cons, List.flatMap_cons, List.length_append, List.map_cons, List.sum_cons,
      hlen]
    rcases h.1 with rfl | ⟨n, hn, rfl⟩
    · obtain ⟨x, rfl⟩ := fits_scalar.1 ht
      exact ⟨⟨trivial, hparts⟩, rfl⟩
    · obtain ⟨xs, rfl, hxs⟩ := ht.of_vector hn
      exact ⟨⟨trivial, hparts⟩, by rw [Shape.size_vector hn, ← hxs]; rfl⟩

/-- The elements of parts fit the vector that the rule gives. -/
theorem concat_eq_ok {ts : List (Tensor α)} {shapes : List Shape} {u : Shape}
    (hts : List.Forall₂ Fits ts shapes) (h : Rule.concat .trap shapes = .ok u) :
    (∀ t ∈ ts, t.IsPart) ∧ (Tensor.vector (ts.flatMap elements)).Fits u := by
  obtain ⟨hne, hshapes, -, rfl⟩ := Rule.concat_eq_ok.1 h
  obtain ⟨hparts, hlen⟩ := length_parts hts hshapes
  refine ⟨hparts, ?_⟩
  have hpos := Shape.sum_size_pos hne hshapes
  rw [← hlen] at hpos ⊢
  exact fits_vector hpos

/-! ## Related tensors -/

/-- Tensors of one kind with related elements in the same places. -/
inductive Rel (R : α → β → Prop) : Tensor α → Tensor β → Prop
  | scalar {x : α} {y : β} (h : R x y) : Rel R (.scalar x) (.scalar y)
  | vector {xs : List α} {ys : List β} (h : List.Forall₂ R xs ys) : Rel R (.vector xs) (.vector ys)
  | matrix {xss : List (List α)} {yss : List (List β)} (h : List.Forall₂ (List.Forall₂ R) xss yss) :
    Rel R (.matrix xss) (.matrix yss)

namespace Rel

variable {R : α → β → Prop} {t : Tensor α} {u : Tensor β}

theorem forall_length {xss : List (List α)} {yss : List (List β)} {n : Nat}
    (h : List.Forall₂ (List.Forall₂ R) xss yss) (hx : ∀ xs ∈ xss, xs.length = n) :
    ∀ ys ∈ yss, ys.length = n := by
  induction h with
  | nil => simp
  | cons h _ ih =>
    intro ys hys
    rcases List.mem_cons.1 hys with rfl | hys
    · rw [← h.length_eq]
      exact hx _ (List.mem_cons_self ..)
    · exact ih (fun xs hxs => hx xs (List.mem_cons_of_mem _ hxs)) ys hys

/-- Related tensors fit the same shapes. -/
theorem fits (h : Rel R t u) {s : Shape} (ht : t.Fits s) : u.Fits s := by
  cases h with
  | scalar _ => exact ht
  | vector h =>
    obtain ⟨hpos, rfl⟩ := ht
    rw [h.length_eq] at hpos ⊢
    exact ⟨hpos, rfl⟩
  | matrix h =>
    obtain ⟨hpos, hcols, hrows, hlen⟩ := ht
    exact ⟨h.length_eq ▸ hpos, hcols, h.length_eq ▸ hrows, forall_length h hlen⟩

/-- Tensors whose elements come in pairs from a third type are two images of one tensor. -/
theorem exists_map {f : γ → δ} {g : α → δ} {k : γ → β}
    (h : Rel (fun x y => ∃ z, f z = g x ∧ k z = y) t u) :
    ∃ s : Tensor γ, s.map f = t.map g ∧ s.map k = u := by
  have hlist : ∀ {xs : List α} {ys : List β},
      List.Forall₂ (fun x y => ∃ z, f z = g x ∧ k z = y) xs ys →
      ∃ zs : List γ, zs.map f = xs.map g ∧ zs.map k = ys := by
    intro xs ys hxy
    induction hxy with
    | nil => exact ⟨[], rfl, rfl⟩
    | cons h _ ih =>
      obtain ⟨z, hx, hy⟩ := h
      obtain ⟨zs, hxs, hys⟩ := ih
      exact ⟨z :: zs, congrArg₂ _ hx hxs, congrArg₂ _ hy hys⟩
  cases h with
  | scalar h =>
    obtain ⟨z, hx, hy⟩ := h
    exact ⟨.scalar z, congrArg _ hx, congrArg _ hy⟩
  | vector h =>
    obtain ⟨zs, hxs, hys⟩ := hlist h
    exact ⟨.vector zs, congrArg _ hxs, congrArg _ hys⟩
  | @matrix xss yss h =>
    have hrows : ∃ zss : List (List γ),
        zss.map (·.map f) = xss.map (·.map g) ∧ zss.map (·.map k) = yss := by
      induction h with
      | nil => exact ⟨[], rfl, rfl⟩
      | cons h _ ih =>
        obtain ⟨zs, hxs, hys⟩ := hlist h
        obtain ⟨zss, hxss, hyss⟩ := ih
        exact ⟨zs :: zss, congrArg₂ _ hxs hxss, congrArg₂ _ hys hyss⟩
    obtain ⟨zss, hxss, hyss⟩ := hrows
    exact ⟨.matrix zss, congrArg _ hxss, congrArg _ hyss⟩

end Rel

end Tensor

end Arithmetization
