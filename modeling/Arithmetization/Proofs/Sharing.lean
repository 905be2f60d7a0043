import Arithmetization.Proofs.Evaluators
import Arithmetization.Proofs.Hoisting
import Arithmetization.Proofs.Trees
import Mathlib.Data.List.Nodup

/-!
Sharing keeps results.

For every evaluator whose nodes are monotone and strict, a block that has a result has the same
result after sharing (`Evaluator.share_refines`). The converse fails, and has to: a store that is
never read is dropped, and with it the fault that computing it may have raised.

The two passes are two simulations. Through a round of hoisting the locals of the new run are
those of the old run and one more, which is unset up to the new store and holds the value of the
shared expression after it. Through the normal form they are those of the old run that are kept,
at their new numbers.
-/

set_option autoImplicit false

namespace Arithmetization

namespace Block

/-- Every operator has its operands and every store a declared local. -/
structure Formed (b : Block) : Prop where
  sized : ∀ e ∈ b.exprs, e.Sized
  target_lt : ∀ s ∈ b.stores, s.target < b.locals.length

theorem Formed.sized_store {b : Block} (h : b.Formed) {s : Assign} (hs : s ∈ b.stores) :
    s.value.Sized :=
  h.sized _ (List.mem_append_left _ (List.mem_map_of_mem hs))

theorem Formed.sized_result {b : Block} (h : b.Formed) : b.result.Sized :=
  h.sized _ (List.mem_append_right _ (List.mem_singleton.2 rfl))

end Block

namespace Expr

theorem exponent?_readInstead {p : Expr → Bool} {fresh : Nat}
    (hp : ∀ x, p x = true → x.op.isTrivial = false) (e : Expr) :
    (e.readInstead p fresh).exponent? = e.exponent? := by
  obtain ⟨op, shape, args⟩ := e
  rw [readInstead_node]
  split
  · next h =>
    have hnt := hp _ h
    cases op with
    | literal value => cases hnt
    | load source index => cases hnt
    | _ => rfl
  · cases op with
    | literal value => cases value <;> rfl
    | load source index => cases source <;> rfl
    | _ => rfl

theorem sized_readInstead {p : Expr → Bool} {fresh : Nat} {e : Expr} (he : e.Sized) :
    (e.readInstead p fresh).Sized := by
  induction e using Expr.induction with
  | node op shape args ih =>
    obtain ⟨htakes, hargs⟩ := sized_node.1 he
    rw [readInstead_node]
    split
    · exact sized_node.2 ⟨rfl, by simp⟩
    · refine sized_node.2 ⟨by rwa [List.length_map], ?_⟩
      intro a ha
      obtain ⟨a', ha', rfl⟩ := List.mem_map.1 ha
      exact ih a' ha' (hargs a' ha')

theorem sized_of_mem_subterms {x e : Expr} (he : e.Sized) (hx : x ∈ e.subterms) : x.Sized := by
  induction e using Expr.induction with
  | node op shape args ih =>
    rcases mem_subterms_node.1 hx with rfl | ⟨a, ha, hx⟩
    · exact he
    · exact ih a ha ((sized_node.1 he).2 a ha) hx

/-- A literal, load or segment has no subterm but itself. -/
theorem eq_of_mem_subterms_trivial {x e : Expr} (he : e.Sized) (ht : e.op.isTrivial = true)
    (hx : x ∈ e.subterms) : x = e := by
  obtain ⟨op, shape, args⟩ := e
  rcases mem_subterms_node.1 hx with rfl | ⟨a, ha, -⟩
  · rfl
  · rw [(sized_node.1 he).1.eq_nil ht] at ha
    cases ha

end Expr

namespace Evaluator

variable {ε α : Type} {ev : Evaluator ε α}

/-! ## One round -/

/-- An expression with a result has one for every subterm that is no literal, load or segment. -/
theorem Strict.subterm (h : ev.Strict) {ρ : List (Option α)} {e x : Expr} (he : e.Sized) {v : α}
    (hv : ev.expr ρ e = .ok v) (hx : x ∈ e.subterms) (hnt : x.op.isTrivial = false) :
    ∃ w, ev.expr ρ x = .ok w := by
  induction e using Expr.induction generalizing v with
  | node op shape args ih =>
    rcases Expr.mem_subterms_node.1 hx with rfl | ⟨a, ha, hx⟩
    · exact ⟨v, hv⟩
    · obtain ⟨htakes, hargs⟩ := Expr.sized_node.1 he
      cases hop : op.local? with
      | some i =>
        rw [Op.local?_eq_some.1 hop] at htakes
        rw [htakes.eq_nil rfl] at ha
        cases ha
      | none =>
        rw [expr_node ρ hop] at hv
        -- the operand on the way to the subterm is not trivial, so its result was needed
        have hnta : a.op.isTrivial = false := by
          by_contra htriv
          rw [Bool.not_eq_false] at htriv
          rw [Expr.eq_of_mem_subterms_trivial (hargs a ha) htriv hx, htriv] at hnt
          cases hnt
        obtain ⟨w, hw⟩ := h htakes hv a ha hnta
        exact ih a ha (hargs a ha) hw hx

/-- Reading a local that holds the value of what it stands for. -/
theorem Simulates.readInstead (h : Simulates ev ev) {p : Expr → Bool} {fresh : Nat}
    {ρ ρ' : List (Option α)} (hρ : Above ρ ρ') {v : α} (hfresh : ρ'.getD fresh none = some v)
    (hnt : ∀ x, p x = true → x.op.isTrivial = false)
    (hp : ∀ x, p x = true → Refines (ev.expr ρ x) (.ok v)) (e : Expr) :
    Refines (ev.expr ρ e) (ev.expr ρ' (e.readInstead p fresh)) := by
  induction e using Expr.induction with
  | node op shape args ih =>
    rw [Expr.readInstead_node]
    split
    · next hpe =>
      rw [expr_local, read_eq_ok.2 hfresh]
      exact hp _ hpe
    · cases hop : op.local? with
      | some i =>
        rw [Op.local?_eq_some.1 hop, expr_local, expr_local]
        intro w hw
        exact read_eq_ok.2 (hρ i w (read_eq_ok.1 hw))
      | none =>
        rw [expr_node ρ hop, expr_node ρ' hop]
        refine h hop ?_ ?_
        · rw [List.map_map]
          exact List.map_congr_left fun a _ => (Expr.exponent?_readInstead hnt a).symm
        · rw [List.map_map]
          exact List.forall₂_map_left_iff.2 (List.forall₂_map_right_iff.2 (List.forall₂_same.2 ih))

theorem length_stores {ρ σ : List (Option α)} {ss : List Assign} (h : ev.stores ρ ss = .ok σ) :
    σ.length = ρ.length := by
  induction ss generalizing ρ with
  | nil => rw [Except.ok.inj h]
  | cons s ss ih =>
    obtain ⟨v, -, h⟩ := stores_cons_eq_ok.1 h
    rw [ih h, List.length_set]

/-- Stores do not touch a local past those that they write. -/
theorem Simulates.stores_append_one (h : Simulates ev ev) (x : Option α) {ss : List Assign}
    {ρ σ : List (Option α)} (hss : ∀ s ∈ ss, s.target < ρ.length) (hs : ev.stores ρ ss = .ok σ) :
    ev.stores (ρ ++ [x]) ss = .ok (σ ++ [x]) := by
  induction ss generalizing ρ with
  | nil => rw [← Except.ok.inj hs]; rfl
  | cons s ss ih =>
    obtain ⟨v, hv, hs⟩ := stores_cons_eq_ok.1 hs
    refine stores_cons_eq_ok.2 ⟨v, h.expr (.append ρ [x]) s.value v hv, ?_⟩
    rw [List.set_append_left _ _ (hss s (List.mem_cons_self ..))]
    refine ih (fun t ht => ?_) hs
    rw [List.length_set]
    exact hss t (List.mem_cons_of_mem _ ht)

theorem getD_append_one (ρ : List (Option α)) (x : Option α) :
    (ρ ++ [x]).getD ρ.length none = x := by
  rw [List.getD_append_right _ _ _ _ (Nat.le_refl _), Nat.sub_self]
  rfl

/-- The locals in `reads` that have been stored no more often than in `σ₀` still hold what they held
there. -/
structure Steady (reads : List Nat) (σ₀ : List Nat) (ρ₀ : List (Option α)) (σ : List Nat)
    (ρ : List (Option α)) : Prop where
  count_le : ∀ l, σ₀.count l ≤ σ.count l
  getD_eq : ∀ l ∈ reads, σ.count l = σ₀.count l → ρ.getD l none = ρ₀.getD l none

theorem Steady.refl (reads σ : List Nat) (ρ : List (Option α)) : Steady reads σ ρ σ ρ :=
  ⟨fun _ => Nat.le_refl _, fun _ _ _ => rfl⟩

/-- A store raises the count of its local, so the others are as they were. -/
theorem Steady.set {reads σ₀ σ : List Nat} {ρ₀ ρ : List (Option α)}
    (h : Steady reads σ₀ ρ₀ σ ρ) (t : Nat) (v : α) :
    Steady reads σ₀ ρ₀ (t :: σ) (ρ.set t (some v)) := by
  refine ⟨fun l => Nat.le_trans (h.count_le l) List.count_le_count_cons, ?_⟩
  intro l hl hcount
  by_cases htl : t = l
  · subst htl
    rw [List.count_cons_self] at hcount
    have := h.count_le t
    omega
  · rw [List.count_cons_of_ne htl] at hcount
    rw [getD_set_ne htl]
    exact h.getD_eq l hl hcount

section Round

variable {b : Block} (step : Block.Hoisting b) {ρ₀ : List (Option α)} {w : α}

/-- What a round replaces evaluates to the shared value, wherever it stands. -/
theorem occurs_refines (hw : ev.expr ρ₀ step.shared = .ok w) {σ : List Nat} {ρ : List (Option α)}
    (hsteady : Steady step.shared.reads (Block.targets step.before) ρ₀ σ ρ) (x : Expr)
    (hx : step.occurs σ x = true) : Refines (ev.expr ρ x) (.ok w) := by
  obtain ⟨rfl, hcount⟩ := step.occurs_spec hx
  rw [← hw, expr_congr fun l hl => hsteady.getD_eq l hl (hcount l hl)]
  exact .refl _

theorem occurs_nontrivial (σ : List Nat) (x : Expr) (hx : step.occurs σ x = true) :
    x.op.isTrivial = false := by
  rw [(step.occurs_spec hx).1]
  exact step.nontrivial

/-- The stores after the new one, with its local in place. -/
theorem Simulates.readStores (h : Simulates ev ev) (hw : ev.expr ρ₀ step.shared = .ok w)
    {ss : List Assign} {σ : List Nat} {ρ ρ' : List (Option α)}
    (hsteady : Steady step.shared.reads (Block.targets step.before) ρ₀ σ ρ)
    (hss : ∀ s ∈ ss, s.target < ρ.length) (hs : ev.stores ρ ss = .ok ρ') :
    ev.stores (ρ ++ [some w]) (Block.readStores step.occurs ρ.length σ ss) = .ok (ρ' ++ [some w])
      ∧ Steady step.shared.reads (Block.targets step.before) ρ₀ (Block.targets ss ++ σ) ρ' := by
  induction ss generalizing σ ρ with
  | nil =>
    obtain rfl := Except.ok.inj hs
    exact ⟨rfl, hsteady⟩
  | cons s ss ih =>
    obtain ⟨v, hv, hs⟩ := stores_cons_eq_ok.1 hs
    -- the store reads the shared value, and may end its validity for the stores that follow:
    -- that is what the raised count says
    have hv' := h.readInstead (.append ρ [some w]) (getD_append_one ρ (some w))
      (occurs_nontrivial step σ) (occurs_refines step hw hsteady) s.value v hv
    obtain ⟨hstores, hsteady'⟩ := ih (hsteady.set s.target v)
      (fun t ht => by rw [List.length_set]; exact hss t (List.mem_cons_of_mem _ ht)) hs
    rw [List.length_set] at hstores
    refine ⟨?_, ?_⟩
    · rw [Block.readStores]
      refine stores_cons_eq_ok.2 ⟨v, hv', ?_⟩
      rw [List.set_append_left _ _ (hss s (List.mem_cons_self ..))]
      exact hstores
    · rw [Block.targets_cons, List.append_assoc]
      exact hsteady'

end Round

/-- **A round of hoisting keeps the result of a block.** -/
theorem hoisting_refines (h : Simulates ev ev) (hstrict : ev.Strict) {b : Block} (hb : b.Formed)
    (step : Block.Hoisting b) : Refines (ev.block b) (ev.block step.block) := by
  intro v hv
  obtain ⟨ρ, hρ, hv⟩ := bind_eq_ok.1 hv
  rw [step.stores_eq, stores_append] at hρ
  obtain ⟨ρ₀, hbefore, hafter⟩ := bind_eq_ok.1 hρ
  have hlen : ρ₀.length = b.locals.length := by rw [length_stores hbefore, List.length_replicate]
  have hlt : ∀ s ∈ step.before ++ step.after, s.target < b.locals.length := by
    rw [← step.stores_eq]
    exact hb.target_lt
  -- the shared expression has a value where it is stored, since the next statement needs it
  obtain ⟨w, hw⟩ : ∃ w, ev.expr ρ₀ step.shared = .ok w := by
    obtain ⟨e, he, hmem⟩ := step.mem_first
    have hsized := hb.sized
    rw [Block.exprs, step.stores_eq] at hsized
    rcases hcase : step.after with _ | ⟨s, ss⟩
    · rw [hcase] at hafter he
      obtain rfl := Except.ok.inj hafter
      obtain rfl : b.result = e := by simpa using he
      exact hstrict.subterm hb.sized_result hv hmem step.nontrivial
    · rw [hcase] at hafter he
      obtain rfl : s.value = e := by simpa using he
      obtain ⟨u, hu, -⟩ := stores_cons_eq_ok.1 hafter
      exact hstrict.subterm (hsized _ (by simp [hcase])) hu hmem step.nontrivial
  -- up to the new store its local is unset, from there on it holds that value
  obtain ⟨hreads, hsteady⟩ := h.readStores step hw (.refl _ _ _)
    (fun s hs => by rw [hlen]; exact hlt s (List.mem_append_right _ hs)) hafter
  have hnew : ev.stores (List.replicate (b.locals.length + 1) none) step.block.stores
      = .ok (ρ ++ [some w]) := by
    rw [List.replicate_succ', Block.Hoisting.block]
    dsimp only
    rw [stores_append]
    refine bind_eq_ok.2 ⟨ρ₀ ++ [none], h.stores_append_one none ?_ hbefore, ?_⟩
    · intro s hs
      rw [List.length_replicate]
      exact hlt s (List.mem_append_left _ hs)
    · refine stores_cons_eq_ok.2 ⟨w, h.expr (.append ρ₀ [none]) step.shared w hw, ?_⟩
      rw [← hlen, List.set_append_right _ _ (Nat.le_refl _), Nat.sub_self]
      exact hreads
  refine bind_eq_ok.2 ⟨ρ ++ [some w], ?_, ?_⟩
  · rw [← hnew]
    simp only [Block.Hoisting.block, List.length_append, List.length_singleton]
  · have hread : (ρ ++ [some w]).getD b.locals.length none = some w := by
      rw [← hlen, ← length_stores hafter]
      exact getD_append_one ρ (some w)
    have htargets : Block.targets step.after ++ Block.targets step.before
        = Block.targets b.stores := by
      rw [step.stores_eq, Block.targets, Block.targets, Block.targets, List.map_append,
        List.reverse_append]
    rw [htargets] at hsteady
    exact h.readInstead (.append ρ [some w]) hread (occurs_nontrivial step _)
      (occurs_refines step hw hsteady) b.result v hv

end Evaluator

/-! ## The normal form -/

namespace Block

/-- The scan that collects the kept locals adds those that are read, each once. -/
theorem keep_spec (reads ts : List Nat) (acc : List Nat) (hacc : acc.Nodup) :
    let kept := ts.foldl
      (fun kept l => if reads.contains l && !kept.contains l then kept ++ [l] else kept) acc
    kept.Nodup ∧ ∀ l, l ∈ kept ↔ l ∈ acc ∨ l ∈ ts ∧ l ∈ reads := by
  induction ts generalizing acc with
  | nil => simpa using hacc
  | cons t ts ih =>
    rw [List.foldl_cons]
    by_cases hadd : (reads.contains t && !acc.contains t) = true
    · rw [if_pos hadd]
      simp only [Bool.and_eq_true, List.contains_iff_mem, Bool.not_eq_true',
        ← Bool.not_eq_true] at hadd
      obtain ⟨hread, hnew⟩ := hadd
      obtain ⟨hnodup, hmem⟩ := ih (acc ++ [t])
        (hacc.append (List.nodup_singleton t) (by simpa using hnew))
      refine ⟨hnodup, fun l => ?_⟩
      rw [hmem l, List.mem_append, List.mem_singleton, List.mem_cons]
      constructor
      · rintro ((h | rfl) | ⟨h, hr⟩)
        exacts [.inl h, .inr ⟨.inl rfl, hread⟩, .inr ⟨.inr h, hr⟩]
      · rintro (h | ⟨rfl | h, hr⟩)
        exacts [.inl (.inl h), .inl (.inr rfl), .inr ⟨h, hr⟩]
    · rw [if_neg hadd]
      simp only [Bool.and_eq_true, List.contains_iff_mem, Bool.not_eq_true',
        ← Bool.not_eq_true, not_and, not_not] at hadd
      obtain ⟨hnodup, hmem⟩ := ih acc hacc
      refine ⟨hnodup, fun l => ?_⟩
      rw [hmem l, List.mem_cons]
      constructor
      · rintro (h | ⟨h, hr⟩)
        exacts [.inl h, .inr ⟨.inr h, hr⟩]
      · rintro (h | ⟨rfl | h, hr⟩)
        exacts [.inl h, .inl (hadd hr), .inr ⟨h, hr⟩]

theorem mem_kept {b : Block} {l : Nat} :
    l ∈ b.kept ↔ l ∈ b.stores.map Assign.target ∧ l ∈ b.reads := by
  rw [kept, (keep_spec b.reads (b.stores.map Assign.target) [] List.nodup_nil).2 l]
  simp

theorem mem_reads_of_mem_exprs {b : Block} {e : Expr} (he : e ∈ b.exprs) {l : Nat}
    (hl : l ∈ e.reads) : l ∈ b.reads :=
  List.mem_flatMap.2 ⟨e, he, hl⟩

theorem renumber_eq {kept : List Nat} {l : Nat} (hl : l ∈ kept) :
    renumber kept l = kept.idxOf l := by
  have hfound : kept.idxOf? l = some (kept.idxOf l) :=
    List.findIdx?_eq_some_iff_findIdx_eq.2 ⟨List.idxOf_lt_length_of_mem hl, rfl⟩
  rw [renumber, hfound, Option.getD_some]

theorem renumber_lt {kept : List Nat} {l : Nat} (hl : l ∈ kept) :
    renumber kept l < kept.length := by
  rw [renumber_eq hl]
  exact List.idxOf_lt_length_of_mem hl

theorem renumber_inj {kept : List Nat} {l m : Nat} (hl : l ∈ kept) (hm : m ∈ kept)
    (h : renumber kept l = renumber kept m) : l = m := by
  rw [renumber_eq hl, renumber_eq hm] at h
  exact (List.idxOf_inj hl).1 h

/-- Renumbering changes the operator of a load of a local and no other. -/
def renumberOp (kept : List Nat) : Op → Op
  | .load .local i => .load .local (renumber kept i)
  | op => op

theorem renumberExpr_node (kept : List Nat) (op : Op) (shape : Shape) (args : List Expr) :
    renumberExpr kept (.node op shape args)
      = .node (renumberOp kept op) shape (args.map (renumberExpr kept)) := by
  rw [renumberExpr, Expr.mapLoads, Expr.fold_node, ← Expr.mapLoads]
  cases op with
  | load source index => cases source <;> rfl
  | _ => rfl

theorem renumberOp_of_local? (kept : List Nat) {op : Op} (h : op.local? = none) :
    renumberOp kept op = op := by
  cases op with
  | load source index =>
    cases source with
    | «local» => cases h
    | _ => rfl
  | _ => rfl

theorem takes_renumberOp (kept : List Nat) (op : Op) (n : Nat) :
    (renumberOp kept op).Takes n ↔ op.Takes n := by
  cases hop : op.local? with
  | none => rw [renumberOp_of_local? kept hop]
  | some i => rw [Op.local?_eq_some.1 hop]; rfl

theorem sized_renumberExpr {kept : List Nat} {e : Expr} (he : e.Sized) :
    (renumberExpr kept e).Sized := by
  induction e using Expr.induction with
  | node op shape args ih =>
    obtain ⟨htakes, hargs⟩ := Expr.sized_node.1 he
    rw [renumberExpr_node]
    refine Expr.sized_node.2 ⟨by rwa [List.length_map, takes_renumberOp], ?_⟩
    intro a ha
    obtain ⟨a', ha', rfl⟩ := List.mem_map.1 ha
    exact ih a' ha' (hargs a' ha')

theorem exponent?_renumberExpr (kept : List Nat) (e : Expr) :
    (renumberExpr kept e).exponent? = e.exponent? := by
  obtain ⟨op, shape, args⟩ := e
  rw [renumberExpr_node]
  cases op with
  | literal value => cases value <;> rfl
  | load source index => cases source <;> rfl
  | _ => rfl

end Block

namespace Evaluator

variable {ε α : Type} {ev : Evaluator ε α}

/-- The locals of a block and those of its normal form: what is set has been stored, and what is
kept is at its new number. -/
structure Renumbered (b : Block) (ρ ρ' : List (Option α)) : Prop where
  length_eq : ρ'.length = b.kept.length
  stored : ∀ {l v}, ρ.getD l none = some v → l ∈ b.stores.map Assign.target
  getD_eq : ∀ {l v}, l ∈ b.kept → ρ.getD l none = some v →
    ρ'.getD (Block.renumber b.kept l) none = some v

namespace Renumbered

variable {b : Block} {ρ ρ' : List (Option α)}

theorem empty (b : Block) :
    Renumbered b (List.replicate b.locals.length (none : Option α))
      (List.replicate b.normalize.locals.length none) where
  length_eq := by rw [List.length_replicate, Block.normalize, List.length_map]
  stored h := by simp at h
  getD_eq _ h := by simp at h

theorem stored_set (h : Renumbered b ρ ρ') {s : Assign} (hs : s ∈ b.stores) {v w : α} {l : Nat}
    (hl : (ρ.set s.target (some v)).getD l none = some w) :
    l ∈ b.stores.map Assign.target := by
  by_cases hsl : s.target = l
  · exact hsl ▸ List.mem_map_of_mem hs
  · rw [getD_set_ne hsl] at hl
    exact h.stored hl

/-- A store that is dropped. -/
theorem set_dropped (h : Renumbered b ρ ρ') {s : Assign} (hs : s ∈ b.stores)
    (hdrop : s.target ∉ b.kept) (v : α) : Renumbered b (ρ.set s.target (some v)) ρ' where
  length_eq := h.length_eq
  stored hl := h.stored_set hs hl
  getD_eq {l w} hkept hl := by
    have hsl : s.target ≠ l := fun hsl => hdrop (hsl ▸ hkept)
    rw [getD_set_ne hsl] at hl
    exact h.getD_eq hkept hl

/-- A store that stays. -/
theorem set_kept (h : Renumbered b ρ ρ') {s : Assign} (hs : s ∈ b.stores)
    (hlt : s.target < ρ.length) (hstay : s.target ∈ b.kept) (v : α) :
    Renumbered b (ρ.set s.target (some v))
      (ρ'.set (Block.renumber b.kept s.target) (some v)) where
  length_eq := by rw [List.length_set, h.length_eq]
  stored hl := h.stored_set hs hl
  getD_eq {l w} hkept hl := by
    by_cases hsl : s.target = l
    · subst hsl
      rw [getD_set_self hlt] at hl
      rw [getD_set_self (h.length_eq ▸ Block.renumber_lt hkept), hl]
    · rw [getD_set_ne hsl] at hl
      rw [getD_set_ne fun heq => hsl (Block.renumber_inj hstay hkept heq)]
      exact h.getD_eq hkept hl

end Renumbered

/-- A statement of the normal form reads what the statement it comes from reads. -/
theorem Simulates.renumberExpr (h : Simulates ev ev) {b : Block} {ρ ρ' : List (Option α)}
    (hρ : Renumbered b ρ ρ') {e : Expr} (he : ∀ l ∈ e.reads, l ∈ b.reads) :
    Refines (ev.expr ρ e) (ev.expr ρ' (Block.renumberExpr b.kept e)) := by
  induction e using Expr.induction with
  | node op shape args ih =>
    rw [Block.renumberExpr_node]
    cases hop : op.local? with
    | some i =>
      obtain rfl := Op.local?_eq_some.1 hop
      rw [Block.renumberOp, expr_local, expr_local]
      intro v hv
      have hi := read_eq_ok.1 hv
      -- a local that is set has been stored, and this one is read: both together make it kept
      have hkept : i ∈ b.kept :=
        Block.mem_kept.2 ⟨hρ.stored hi, he i (Expr.mem_reads_node.2 (.inl rfl))⟩
      exact read_eq_ok.2 (hρ.getD_eq hkept hi)
    | none =>
      rw [Block.renumberOp_of_local? _ hop, expr_node ρ hop, expr_node ρ' hop]
      refine h hop ?_ ?_
      · rw [List.map_map]
        exact List.map_congr_left fun a _ => (Block.exponent?_renumberExpr _ a).symm
      · rw [List.map_map]
        refine List.forall₂_map_left_iff.2 (List.forall₂_map_right_iff.2 (List.forall₂_same.2 ?_))
        exact fun a ha => ih a ha fun l hl => he l (Expr.mem_reads_node.2 (.inr ⟨a, ha, hl⟩))

theorem Simulates.renumberStores (h : Simulates ev ev) {b : Block} {ss : List Assign}
    {ρ ρ' σ : List (Option α)} (hρ : Renumbered b ρ ρ') (hss : ∀ s ∈ ss, s ∈ b.stores)
    (hlt : ∀ s ∈ ss, s.target < ρ.length) (hs : ev.stores ρ ss = .ok σ) :
    ∃ σ', ev.stores ρ' ((ss.filter fun s => b.kept.contains s.target).map fun s =>
        ⟨Block.renumber b.kept s.target, Block.renumberExpr b.kept s.value⟩) = .ok σ'
      ∧ Renumbered b σ σ' := by
  induction ss generalizing ρ ρ' with
  | nil =>
    obtain rfl := Except.ok.inj hs
    exact ⟨ρ', rfl, hρ⟩
  | cons s ss ih =>
    obtain ⟨v, hv, hs⟩ := stores_cons_eq_ok.1 hs
    have hmem : s ∈ b.stores := hss s (List.mem_cons_self ..)
    have hrest : ∀ t ∈ ss, t ∈ b.stores := fun t ht => hss t (List.mem_cons_of_mem _ ht)
    have hrest_lt : ∀ t ∈ ss, t.target < (ρ.set s.target (some v)).length := by
      intro t ht
      rw [List.length_set]
      exact hlt t (List.mem_cons_of_mem _ ht)
    -- a dropped store has run in the block and has no counterpart: its value is in no kept local
    by_cases hkept : s.target ∈ b.kept
    · rw [List.filter_cons_of_pos (by simpa using hkept), List.map_cons]
      have hreads : ∀ l ∈ s.value.reads, l ∈ b.reads := fun l hl =>
        Block.mem_reads_of_mem_exprs (List.mem_append_left _ (List.mem_map_of_mem hmem)) hl
      obtain ⟨σ', hσ', hrel⟩ :=
        ih (hρ.set_kept hmem (hlt s (List.mem_cons_self ..)) hkept v) hrest hrest_lt hs
      exact ⟨σ', stores_cons_eq_ok.2 ⟨v, h.renumberExpr hρ hreads v hv, hσ'⟩, hrel⟩
    · rw [List.filter_cons_of_neg (by simpa using hkept)]
      exact ih (hρ.set_dropped hmem hkept v) hrest hrest_lt hs

/-- **The normal form keeps the result of a block.** -/
theorem normalize_refines (h : Simulates ev ev) {b : Block} (hb : b.Formed) :
    Refines (ev.block b) (ev.block b.normalize) := by
  intro v hv
  obtain ⟨ρ, hρ, hv⟩ := bind_eq_ok.1 hv
  obtain ⟨ρ', hρ', hrel⟩ := h.renumberStores (.empty b) (fun _ hs => hs)
    (fun s hs => by rw [List.length_replicate]; exact hb.target_lt s hs) hρ
  refine bind_eq_ok.2 ⟨ρ', hρ', h.renumberExpr hrel (fun l hl => ?_) v hv⟩
  exact Block.mem_reads_of_mem_exprs (List.mem_append_right _ (List.mem_singleton.2 rfl)) hl

end Evaluator

/-! ## Sharing -/

namespace Block

theorem Formed.hoisting {b : Block} (hb : b.Formed) (step : Hoisting b) : step.block.Formed := by
  refine ⟨fun e he => ?_, fun t ht => ?_⟩
  · obtain he | rfl | ⟨e', he', p, rfl⟩ := step.mem_exprs he
    · exact hb.sized e he
    · obtain ⟨e, he, hmem⟩ := step.exists_mem_exprs
      exact Expr.sized_of_mem_subterms (hb.sized e he) hmem
    · exact Expr.sized_readInstead (hb.sized e' he')
  · rw [step.length_locals]
    obtain ht | rfl | ⟨s, hs, p, rfl⟩ := step.mem_stores ht
    · exact Nat.lt_succ_of_lt (hb.target_lt t ht)
    · exact Nat.lt_succ_self _
    · exact Nat.lt_succ_of_lt (hb.target_lt s hs)

theorem Formed.normalize {b : Block} (hb : b.Formed) : b.normalize.Formed := by
  have hstore : ∀ t ∈ b.normalize.stores, t.value.Sized ∧ t.target < b.kept.length := by
    intro t ht
    obtain ⟨s, hs, rfl⟩ := List.mem_map.1 ht
    obtain ⟨hs, hkept⟩ := List.mem_filter.1 hs
    exact ⟨sized_renumberExpr (hb.sized_store hs), renumber_lt (List.contains_iff_mem.1 hkept)⟩
  refine ⟨fun e he => ?_, fun t ht => ?_⟩
  · rcases List.mem_append.1 he with he | he
    · obtain ⟨t, ht, rfl⟩ := List.mem_map.1 he
      exact (hstore t ht).1
    · rw [List.mem_singleton.1 he]
      exact sized_renumberExpr hb.sized_result
  · rw [Block.normalize, List.length_map]
    exact (hstore t ht).2

theorem Formed.share {b : Block} (hb : b.Formed) (minWeight : Nat) : (b.share minWeight).Formed :=
  (hoistAll_induction (fun step h => h.hoisting step) hb).normalize

end Block

theorem Body.block_share (options : SharingOptions) (b : Body) :
    (b.share options).block
      = if options.enabled then b.block.share options.minWeight else b.block := by
  unfold Body.share
  split
  · exact Block.toBody_block _
  · rfl

/-- **Sharing keeps the result of a block.** -/
theorem Evaluator.share_refines {ε α : Type} {ev : Evaluator ε α} (h : Simulates ev ev)
    (hstrict : ev.Strict) {b : Block} (hb : b.Formed) (minWeight : Nat) :
    Refines (ev.block b) (ev.block (b.share minWeight)) := by
  have hrounds : (Block.hoistAll (max minWeight 2) b.operations b).Formed
      ∧ Refines (ev.block b) (ev.block (Block.hoistAll (max minWeight 2) b.operations b)) :=
    Block.hoistAll_induction
      (motive := fun b' => b'.Formed ∧ Refines (ev.block b) (ev.block b'))
      (fun step hb' => ⟨hb'.1.hoisting step, hb'.2.trans (hoisting_refines h hstrict hb'.1 step)⟩)
      ⟨hb, .refl _⟩
  exact hrounds.2.trans (normalize_refines h hrounds.1)

end Arithmetization
