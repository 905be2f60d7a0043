import Arithmetization.Proofs.Sections

/-!
Where a form stands does not matter.

Two forms are alike if they differ in nothing but the places of their tokens. A place is looked at
only when a fault is reported, so whatever accepts a form accepts one that is like it, with the same
answer. What the grammar accepts is known from the bare forms alone (`Grammar.expr_eq_ok`,
`Grammar.body_eq_ok`, `Grammar.header_eq_ok`, `Grammar.register_eq_ok`), with all the nodes of the
answer and not only its trees, so that this is a consequence for each kind of section.
-/

set_option autoImplicit false

namespace Arithmetization

namespace Form

/-- Whether two forms differ only in the places of their tokens. -/
def Alike (f g : Form) : Prop :=
  f.bare = g.bare

/-- Forms one by one alike have the same bare forms in the same order. -/
theorem forall₂_alike {fs gs : List Form} :
    List.Forall₂ Alike fs gs ↔ fs.map bare = gs.map bare := by
  rw [← List.forall₂_eq_eq_eq, List.forall₂_map_left_iff, List.forall₂_map_right_iff]
  rfl

/-- Like a number there is only the same number, elsewhere in the text. -/
theorem alike_int {n : Nat} {pos : Position} {g : Form} :
    Alike (.int n pos) g ↔ ∃ pos', g = .int n pos' := by
  rw [Alike, eq_comm]
  exact bare_eq_int

theorem alike_sym {name : String} {pos : Position} {g : Form} :
    Alike (.sym name pos) g ↔ ∃ pos', g = .sym name pos' := by
  rw [Alike, eq_comm]
  exact bare_eq_sym

theorem alike_list {fs : List Form} {pos : Position} {g : Form} :
    Alike (.list fs pos) g ↔ ∃ gs pos', g = .list gs pos' ∧ List.Forall₂ Alike fs gs := by
  rw [Alike, bare_list, eq_comm, bare_eq_list]
  simp only [forall₂_alike, eq_comm]

/-- Alike forms are sections of the same kind. -/
theorem Alike.head? {f g : Form} (h : f.Alike g) : f.head? = g.head? := by
  rw [← head?_bare, ← head?_bare, h]

theorem Alike.items {f g : Form} (h : f.Alike g) : List.Forall₂ Alike f.items g.items := by
  cases f with
  | list fs pos =>
    obtain ⟨gs, pos', rfl, hgs⟩ := alike_list.1 h
    exact hgs
  | int n pos =>
    obtain ⟨pos', rfl⟩ := alike_int.1 h
    exact .nil
  | sym name pos =>
    obtain ⟨pos', rfl⟩ := alike_sym.1 h
    exact .nil
  | hex bytes pos =>
    obtain ⟨pos', rfl⟩ := bare_eq_hex.1 h.symm
    exact .nil

theorem Alike.operands {f g : Form} (h : f.Alike g) : List.Forall₂ Alike f.operands g.operands := by
  have hitems := h.items
  rw [Form.operands, Form.operands]
  generalize f.items = fs at hitems ⊢
  generalize g.items = gs at hitems ⊢
  cases hitems with
  | nil => exact .nil
  | cons _ htail => exact htail

end Form

namespace Grammar

open Form

/-- What is accepted as a literal is accepted elsewhere as the same literal. The other lemmas say
this of types, bodies and each kind of section. -/
theorem literal_alike {fs gs : List Form} (h : List.Forall₂ Alike fs gs) (modulus : Nat)
    (pos pos' : Position) : Refines (literal modulus pos fs) (literal modulus pos' gs) := by
  intro value hvalue
  rw [literal_eq_ok] at hvalue ⊢
  rwa [← forall₂_alike.1 h]

theorem type_alike {fs gs : List Form} (h : List.Forall₂ Alike fs gs) (pos pos' : Position) :
    Refines (type pos fs) (type pos' gs) := by
  intro s hs
  rw [type_eq_ok] at hs ⊢
  rwa [← forall₂_alike.1 h]

/-- A run over forms whose steps do not depend on places. -/
theorem Runs.alike {σ : Type} {next : σ → Form → σ → Prop}
    (hnext : ∀ s s' f g, next s f s' → f.Alike g → next s g s') {fs gs : List Form} {s s' : σ}
    (h : Runs next s fs s') (hfs : List.Forall₂ Alike fs gs) : Runs next s gs s' := by
  induction hfs generalizing s with
  | nil => exact h
  | cons hf _ ih =>
    cases h with
    | cons h hs => exact .cons (hnext _ _ _ _ h hf) (ih hs)

theorem body_alike {cx : Context} {fs gs : List Form} (h : List.Forall₂ Alike fs gs)
    (pos pos' : Position) : Refines (body cx pos fs) (body cx pos' gs) := by
  intro b hb
  rw [body_eq_ok] at hb ⊢
  rwa [← forall₂_alike.1 h]

/-- Parameters are told from statements by their heads, so two alike lists are cut in the same
place. -/
theorem forall₂_takeWhile_alike {p : Form → Bool} (hp : ∀ f g, f.Alike g → p f = p g)
    {fs gs : List Form} (h : List.Forall₂ Alike fs gs) :
    List.Forall₂ Alike (fs.takeWhile p) (gs.takeWhile p)
      ∧ List.Forall₂ Alike (fs.dropWhile p) (gs.dropWhile p) := by
  induction h with
  | nil => exact ⟨.nil, .nil⟩
  | @cons f g fs gs hf hfs ih =>
    rw [List.takeWhile_cons, List.takeWhile_cons, List.dropWhile_cons, List.dropWhile_cons,
      ← hp f g hf]
    split
    · exact ⟨.cons hf ih.1, ih.2⟩
    · exact ⟨.nil, .cons hf hfs⟩

/-- The parameters, the result and the statements of a function are all read from bare forms. -/
theorem function_alike {f g : Form} (h : f.Alike g) (modulus : Nat) (constants : List Literal)
    (functions : List Function) :
    Refines (function modulus constants functions f) (function modulus constants functions g) := by
  intro fn hfn
  rw [function_eq_ok] at hfn ⊢
  obtain ⟨result, rest, hoperands, hhead, hresult, hparams, hbody, hshape⟩ := hfn
  have halike := h.operands
  rw [hoperands] at halike
  obtain ⟨result', rest', hresult', hrest, hoperands'⟩ := List.forall₂_cons_left_iff.1 halike
  obtain ⟨htake, hdrop⟩ := forall₂_takeWhile_alike (p := isParam)
    (fun f g hfg => by rw [isParam, isParam, hfg.head?]) hrest
  refine ⟨result', rest', hoperands', hresult'.head? ▸ hhead,
    type_alike hresult'.operands _ _ _ hresult, ?_, body_alike hdrop _ _ _ hbody, hshape⟩
  refine Refines.mapM (htake.imp fun p p' hp => ?_) _ hparams
  exact type_alike hp.operands _ _

theorem procedure_alike {cx : Context} {f g : Form} (h : f.Alike g) (kind : ProcedureKind)
    (width : Nat) : Refines (procedure cx kind width f) (procedure cx kind width g) := by
  intro p hp
  rw [procedure_eq_ok] at hp ⊢
  obtain ⟨hkind, hwidth, hpos, hbody, hshape⟩ := hp
  exact ⟨hkind, hwidth, hpos, body_alike (List.forall₂_drop 3 h.items) _ _ _ hbody, hshape⟩

theorem header_alike {f g : Form} (h : f.Alike g) (kind : ProcedureKind) :
    Refines (header kind f) (header kind g) := by
  intro width hwidth
  rw [header_eq_ok] at hwidth ⊢
  rwa [← h]

/-- Registers are declared one after the other, each after those that the forms before it have made.
-/
theorem registers_alike {f g : Form} (h : f.Alike g) (modulus : Nat) :
    Refines (registers modulus f) (registers modulus g) := by
  intro set hset
  rw [registers_eq_ok] at hset ⊢
  obtain ⟨b, hbuild, hrun⟩ := hset
  refine ⟨b, hbuild, hrun.alike ?_ h.operands⟩
  intro b b' f g hf hfg
  rw [register_eq_ok] at hf ⊢
  rwa [← hfg]

end Grammar

end Arithmetization
