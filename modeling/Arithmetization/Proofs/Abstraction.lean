import Arithmetization.Proofs.Evaluators
import Arithmetization.Proofs.Occurrences
import Arithmetization.Proofs.Tensors

/-!
Sound abstractions of evaluators.

Shapes and degrees are computed before any run and say something about every run. Such a statement
is a relation between an abstract result and the results of a family of runs. The runs of a family
go together: either all of them succeed, and their values are described as a family, or all stop
with one fault. For shapes the family has a single member. For degrees it has one for every choice
of registers, and it is the family as a whole, a polynomial function, that a degree describes.

`Evaluator.Abstracts` is the statement about one node; `Evaluator.Abstracts.block` carries it to
blocks.
-/

set_option autoImplicit false

namespace Arithmetization

/-! ## Families of outcomes -/

section Uniform

variable {ι ε α β : Type}

/-- All members succeed, with values of which `S` holds, or all stop with one admitted fault. -/
def Uniform (E : ε → Prop) (S : (ι → β) → Prop) (f : ι → Except ε β) : Prop :=
  (∃ v, S v ∧ ∀ i, f i = .ok (v i)) ∨ ∃ e, E e ∧ ∀ i, f i = .error e

namespace Uniform

variable {E : ε → Prop}

theorem ok {S : (ι → β) → Prop} {v : ι → β} (h : S v) : Uniform E S fun i => .ok (v i) :=
  .inl ⟨v, h, fun _ => rfl⟩

theorem error {S : (ι → β) → Prop} {e : ε} (h : E e) : Uniform E S fun _ => .error e :=
  .inr ⟨e, h, fun _ => rfl⟩

theorem congr {S : (ι → β) → Prop} {f g : ι → Except ε β} (h : Uniform E S f)
    (hfg : ∀ i, g i = f i) :
    Uniform E S g := by
  rwa [show g = f from funext hfg]

theorem imp {S S' : (ι → β) → Prop} {f : ι → Except ε β} (h : Uniform E S f)
    (hS : ∀ v, S v → S' v) : Uniform E S' f :=
  h.imp_left fun ⟨v, hv, hf⟩ => ⟨v, hS v hv, hf⟩

/-- One step after another. -/
theorem bind {S : (ι → α) → Prop} {S' : (ι → β) → Prop} {f : ι → Except ε α}
    {g : ι → α → Except ε β} (h : Uniform E S f)
    (hg : ∀ v, S v → Uniform E S' fun i => g i (v i)) : Uniform E S' fun i => f i >>= g i := by
  rcases h with ⟨v, hv, hf⟩ | ⟨e, he, hf⟩
  · refine (hg v hv).congr fun i => ?_
    rw [hf i]
    rfl
  · refine (error he).congr fun i => ?_
    rw [hf i]
    rfl

theorem map {S : (ι → α) → Prop} {S' : (ι → β) → Prop} {f : ι → Except ε α} {g : α → β}
    (h : Uniform E S f) (hg : ∀ v, S v → S' fun i => g (v i)) :
    Uniform E S' fun i => g <$> f i := by
  rcases h with ⟨v, hv, hf⟩ | ⟨e, he, hf⟩
  · refine (ok (hg v hv)).congr fun i => ?_
    rw [hf i]
    rfl
  · refine (error he).congr fun i => ?_
    rw [hf i]
    rfl

/-- Steps that are independent of one another. -/
theorem mapM {Ss : List ((ι → β) → Prop)} {fs : List (ι → Except ε β)}
    (h : List.Forall₂ (fun S f => Uniform E S f) Ss fs) :
    Uniform E (fun vs : ι → List β => ∃ ws : List (ι → β),
        List.Forall₂ (fun S w => S w) Ss ws ∧ ∀ i, vs i = ws.map (· i))
      fun i => (fs.map (· i)).mapM id := by
  induction h with
  | nil => exact ok ⟨[], .nil, fun _ => rfl⟩
  | @cons S f Ss fs hf _ ih =>
    have hmap : ∀ i, ((f :: fs).map (· i)).mapM id
        = (f i >>= fun x => (fs.map (· i)).mapM id >>= fun xs => pure (x :: xs)) := by
      intro i
      rw [List.map_cons, List.mapM_cons]
      rfl
    refine Uniform.congr (hf.bind fun v hv => ih.bind fun vs ⟨ws, hws, hvs⟩ => ?_) hmap
    exact ok ⟨v :: ws, .cons hv hws, fun i => congrArg (v i :: ·) (hvs i)⟩

/-- One step for every element of a list. -/
theorem list {xs : List α} {f : ι → α → Except ε β} {R : α → (ι → β) → Prop}
    (h : ∀ x ∈ xs, Uniform E (R x) fun i => f i x) :
    Uniform E (fun vs : ι → List β => ∃ ws : List (ι → β),
        List.Forall₂ R xs ws ∧ ∀ i, vs i = ws.map (· i))
      fun i => xs.mapM (f i) := by
  have hsteps : List.Forall₂ (fun S g => Uniform E S g) (xs.map R) (xs.map fun x i => f i x) :=
    List.forall₂_map_left_iff.2 (List.forall₂_map_right_iff.2 (List.forall₂_same.2 h))
  refine Uniform.congr ((mapM hsteps).imp ?_) fun i => ?_
  · rintro vs ⟨ws, hws, hvs⟩
    rw [List.forall₂_map_left_iff] at hws
    exact ⟨ws, hws, hvs⟩
  · rw [List.map_map, List.mapM_map]
    rfl

/-- A list of families of lists is a family of lists of lists. -/
theorem exists_rows {xss : List (List α)} {vss : List (ι → List β)} {R : α → (ι → β) → Prop}
    (h : List.Forall₂ (fun xs vs => ∃ ws, List.Forall₂ R xs ws ∧ ∀ i, vs i = ws.map (· i)) xss
      vss) :
    ∃ wss : List (List (ι → β)), List.Forall₂ (List.Forall₂ R) xss wss
      ∧ ∀ i, vss.map (· i) = wss.map (·.map (· i)) := by
  induction h with
  | nil => exact ⟨[], .nil, fun _ => rfl⟩
  | cons h _ ih =>
    obtain ⟨ws, hws, hvs⟩ := h
    obtain ⟨wss, hwss, hvss⟩ := ih
    exact ⟨ws :: wss, .cons hws hwss, fun i => by rw [List.map_cons, List.map_cons, hvs i, hvss i]⟩

/-- One step for every element of a tensor. -/
theorem tensor {t : Tensor α} {f : ι → α → Except ε β} {R : α → (ι → β) → Prop}
    (h : ∀ x ∈ t.elements, Uniform E (R x) fun i => f i x) :
    Uniform E (fun v : ι → Tensor β => ∃ T : Tensor (ι → β),
        Tensor.Rel R t T ∧ ∀ i, v i = T.map (· i))
      fun i => t.mapM (f i) := by
  cases t with
  | scalar x =>
    refine (h x (List.mem_singleton.2 rfl)).map fun v hv => ?_
    exact ⟨.scalar v, .scalar hv, fun _ => rfl⟩
  | vector xs =>
    refine (list h).map fun vs ⟨ws, hws, hvs⟩ => ?_
    exact ⟨.vector ws, .vector hws, fun i => congrArg _ (hvs i)⟩
  | matrix rows =>
    have hrows : ∀ row ∈ rows, Uniform E (fun vs : ι → List β => ∃ ws : List (ι → β),
        List.Forall₂ R row ws ∧ ∀ i, vs i = ws.map (· i)) fun i => row.mapM (f i) :=
      fun row hrow => list fun x hx => h x (List.mem_flatten.2 ⟨row, hrow, hx⟩)
    refine (list hrows).map fun vs ⟨ws, hws, hvs⟩ => ?_
    obtain ⟨wss, hwss, hmap⟩ := exists_rows hws
    exact ⟨.matrix wss, .matrix hwss, fun i => congrArg _ ((hvs i).trans (hmap i))⟩

end Uniform

end Uniform

namespace Evaluator

variable {ι ε ε' α β : Type}

/-- The result of a node describes the results of the family, if the results of its operands do.
What `Q` says is known of the node. -/
def Abstracts (Q : Expr → Prop) (E : ε' → Prop) (S : α → (ι → β) → Prop) (ev : Evaluator ε α)
    (evs : ι → Evaluator ε' β) : Prop :=
  ∀ op shape args a (r : Expr → Except ε α) (fs : Expr → ι → Except ε' β), op.local? = none →
    Q (.node op shape args) → ev.node op shape args (args.map r) = .ok a →
    (∀ x ∈ args, ∀ b, r x = .ok b → Uniform E (S b) (fs x)) →
    Uniform E (S a) fun i => (evs i).node op shape args (args.map (fs · i))

/-- Locals that are described one by one. -/
structure Describes (S : α → (ι → β) → Prop) (ρ : List (Option α)) (ρs : ι → List (Option β)) :
    Prop where
  length_eq : ∀ i, (ρs i).length = ρ.length
  getD_eq : ∀ {l a}, ρ.getD l none = some a → ∃ v, S a v ∧ ∀ i, (ρs i).getD l none = some (v i)

variable {Q : Expr → Prop} {E : ε' → Prop} {S : α → (ι → β) → Prop} {ev : Evaluator ε α}
  {evs : ι → Evaluator ε' β}

theorem Describes.empty (n : Nat) :
    Describes S (List.replicate n none) fun _ => List.replicate n none where
  length_eq _ := by rw [List.length_replicate, List.length_replicate]
  getD_eq h := by simp at h

theorem Describes.set {ρ : List (Option α)} {ρs : ι → List (Option β)} (h : Describes S ρ ρs)
    (l : Nat) {a : α} {v : ι → β} (hv : S a v) :
    Describes S (ρ.set l (some a)) fun i => (ρs i).set l (some (v i)) where
  length_eq i := by rw [List.length_set, List.length_set, h.length_eq]
  getD_eq {m b} hm := by
    by_cases hlm : l = m
    · subst hlm
      have hlt : l < ρ.length := by
        by_contra hge
        rw [List.getD_eq_default _ _ (by rw [List.length_set]; exact Nat.not_lt.1 hge)] at hm
        cases hm
      rw [getD_set_self hlt] at hm
      obtain rfl := Option.some.inj hm
      exact ⟨v, hv, fun i => getD_set_self (by rw [h.length_eq]; exact hlt) _⟩
    · rw [getD_set_ne hlm] at hm
      obtain ⟨w, hw, hget⟩ := h.getD_eq hm
      exact ⟨w, hw, fun i => by rw [getD_set_ne hlm, hget i]⟩

theorem Abstracts.expr (h : Abstracts Q E S ev evs) {ρ : List (Option α)}
    {ρs : ι → List (Option β)} (hρ : Describes S ρ ρs) {e : Expr} (hQ : ∀ x ∈ e.subterms, Q x)
    {a : α} (ha : ev.expr ρ e = .ok a) : Uniform E (S a) fun i => (evs i).expr (ρs i) e := by
  induction e using Expr.induction generalizing a with
  | node op shape args ih =>
    cases hop : op.local? with
    | some l =>
      obtain rfl := Op.local?_eq_some.1 hop
      rw [expr_local] at ha
      obtain ⟨v, hv, hget⟩ := hρ.getD_eq (read_eq_ok.1 ha)
      refine (Uniform.ok hv).congr fun i => ?_
      rw [expr_local, read_eq_ok.2 (hget i)]
    | none =>
      rw [expr_node ρ hop] at ha
      refine (h op shape args a (ev.expr ρ) (fun x i => (evs i).expr (ρs i) x) hop
        (hQ _ (Expr.mem_subterms_self _)) ha ?_).congr fun i => expr_node (ρs i) hop shape args
      intro x hx b hb
      exact ih x hx (fun y hy => hQ y (Expr.mem_subterms_arg hx hy)) hb

theorem Abstracts.stores (h : Abstracts Q E S ev evs) {ss : List Assign} {ρ : List (Option α)}
    {ρs : ι → List (Option β)} (hρ : Describes S ρ ρs)
    (hQ : ∀ s ∈ ss, ∀ x ∈ s.value.subterms, Q x) {σ : List (Option α)}
    (hσ : ev.stores ρ ss = .ok σ) :
    Uniform E (Describes S σ) fun i => (evs i).stores (ρs i) ss := by
  induction ss generalizing ρ ρs with
  | nil =>
    obtain rfl := Except.ok.inj hσ
    exact Uniform.ok hρ
  | cons s ss ih =>
    obtain ⟨a, ha, hσ⟩ := stores_cons_eq_ok.1 hσ
    refine (h.expr hρ (hQ s (List.mem_cons_self ..)) ha).bind fun v hv => ?_
    exact ih (hρ.set s.target hv) (fun t ht => hQ t (List.mem_cons_of_mem _ ht)) hσ

/-- **The result of a block describes the results of the family.** -/
theorem Abstracts.block (h : Abstracts Q E S ev evs) {b : Block}
    (hQ : ∀ e ∈ b.exprs, ∀ x ∈ e.subterms, Q x) {a : α} (ha : ev.block b = .ok a) :
    Uniform E (S a) fun i => (evs i).block b := by
  obtain ⟨σ, hσ, ha⟩ := bind_eq_ok.1 ha
  refine (h.stores (.empty _) (fun s hs => hQ _ ?_) hσ).bind fun ρs hρs => ?_
  · exact List.mem_append_left _ (List.mem_map_of_mem hs)
  · exact h.expr hρs (hQ _ (List.mem_append_right _ (List.mem_singleton.2 rfl))) ha

end Evaluator

end Arithmetization
