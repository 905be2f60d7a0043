import Arithmetization.Compile
import Arithmetization.Proofs.Sections

/-!
Reading where an overflow stops the run.

The only counts that are made while an expression is read are lengths of vectors. Where these leave
their range, a run is stopped or goes on with another number; up to there it does not matter which
(`Grammar.expr_stops`). Faults are collected while a module is read, and a stop is collected with
them, but it is all that is reported in the end. So what is said of compiling where an overflow
stops the run holds of every machine, except for the texts on which a run is stopped
(`compile_stops`).
-/

set_option autoImplicit false

namespace Arithmetization

variable {α β : Type}

/-- The first of two computations was stopped by an overflow, or they are the same. -/
def Stops (x y : Except Fault α) : Prop :=
  x = .error (.stop .overflow) ∨ x = y

namespace Stops

theorem refl (x : Except Fault α) : Stops x x :=
  .inr rfl

theorem bind {x y : Except Fault α} {f g : α → Except Fault β} (h : Stops x y)
    (hf : ∀ a, Stops (f a) (g a)) : Stops (x >>= f) (y >>= g) := by
  rcases h with rfl | rfl
  · exact .inl rfl
  · cases x with
    | error e => exact .inr rfl
    | ok a => exact hf a

theorem foldlM {f g : α → β → Except Fault α} (h : ∀ a b, Stops (f a b) (g a b)) (bs : List β)
    (a : α) : Stops (bs.foldlM f a) (bs.foldlM g a) := by
  induction bs generalizing a with
  | nil => exact .refl _
  | cons b bs ih => exact (h a b).bind ih

end Stops

theorem Overflow.keep_stops (o : Overflow) (n : Nat) :
    Stops ((keep .trap n).mapError .stop) ((o.keep n).mapError .stop) := by
  by_cases hn : n < bound
  · rw [keep_of_lt .trap hn, keep_of_lt o hn]
    exact .refl _
  · rw [keep_trap_of_le (Nat.not_lt.1 hn)]
    exact .inl rfl

theorem Rule.concat_stops (o : Overflow) (parts : List Shape) :
    Stops (concat .trap parts) (concat o parts) := by
  refine Stops.bind (Stops.foldlM (fun n part => ?_) parts 0) fun n => .refl _
  unfold appendLength
  split
  · exact o.keep_stops _
  split
  · exact o.keep_stops _
  · exact .refl _

namespace Grammar

open Form

/-- A context in which another thing happens to vectors that are too long. -/
def Context.under (cx : Context) (o : Overflow) : Context :=
  { cx with overflow := o }

theorem Context.functions_under (cx : Context) (o : Overflow) :
    (cx.under o).functions = cx.functions := rfl

theorem located_stops {pos : Position} {x y : Except Fault α} (h : Stops x y) :
    Stops (located pos x) (located pos y) := by
  rcases h with rfl | rfl
  · exact .inl rfl
  · exact .refl _

theorem onArena_stops (b : Builder) {f g : Arena → Except Fault (Arena × Nat)}
    (h : ∀ a, Stops (f a) (g a)) : Stops (b.onArena f) (b.onArena g) := by
  rw [Builder.onArena_eq, Builder.onArena_eq]
  rcases h b.arena with h | h
  · rw [h]
    exact .inl rfl
  · rw [h]
    exact .refl _

/-- Reading the form is stopped by an overflow, or gives the same whatever an overflow does. -/
def ReadsAlike (cx : Context) (o : Overflow) (f : Form) : Prop :=
  ∀ b, Stops (expr (cx.under .trap) b f) (expr (cx.under o) b f)

variable {cx : Context} {o : Overflow}

theorem exprs_stops {fs : List Form} (hfs : ∀ f ∈ fs, ReadsAlike cx o f) (b : Builder) :
    Stops (exprs (cx.under .trap) b fs) (exprs (cx.under o) b fs) := by
  induction fs generalizing b with
  | nil =>
    rw [exprs_nil, exprs_nil]
    exact .refl _
  | cons f fs ih =>
    rw [List.forall_mem_cons] at hfs
    rw [exprs_cons, exprs_cons]
    exact (hfs.1 b).bind fun p => (ih hfs.2 p.1).bind fun q => .refl _

theorem exprRows_stops {rows : List Form} (hrows : ∀ f ∈ rows, ∀ g ∈ f.items, ReadsAlike cx o g)
    (b : Builder) : Stops (exprRows (cx.under .trap) b rows) (exprRows (cx.under o) b rows) := by
  induction rows generalizing b with
  | nil =>
    rw [exprRows_nil, exprRows_nil]
    exact .refl _
  | cons f rows ih =>
    rw [List.forall_mem_cons] at hrows
    cases f with
    | list items pos =>
      rw [exprRows_cons, exprRows_cons]
      have hitems : ∀ g ∈ items, ReadsAlike cx o g := hrows.1
      exact (exprs_stops hitems b).bind fun p => (ih hrows.2 p.1).bind fun q => .refl _
    | _ =>
      rw [exprRows, exprRows]
      · exact .refl _
      all_goals exact fun _ _ h => (by cases h)

theorem readsAlike_list {items : List Form} (pos : Position)
    (hitems : ∀ f ∈ items, ReadsAlike cx o f ∧ ∀ g ∈ f.items, ReadsAlike cx o g) :
    ReadsAlike cx o (.list items pos) := by
  intro b
  rw [expr.eq_def, expr.eq_def (cx.under o)]
  split
  · next heq => cases heq
  · next name namePos args pos' heq =>
    cases heq
    have hargs : ∀ f ∈ args, ReadsAlike cx o f :=
      fun f hf => (hitems f (List.mem_cons_of_mem _ hf)).1
    dsimp only
    split
    · exact .refl _
    next head hhead =>
    split
    · exact .refl _
    next hliteral =>
    split
    · next op l r =>
      exact (hargs l (by simp) b).bind fun p => (hargs r (by simp) p.1).bind fun q => .refl _
    · next op x => exact (hargs x (by simp) b).bind fun p => .refl _
    · refine (exprs_stops hargs b).bind fun p => located_stops (onArena_stops _ fun a => ?_)
      exact (Rule.concat_stops o _).bind fun s => .refl _
    · refine (exprRows_stops ?_ b).bind fun p => .refl _
      exact fun f hf => (hitems f (List.mem_cons_of_mem _ hf)).2
    · next source i => exact (hargs source (by simp) b).bind fun p => .refl _
    · next source first last => exact (hargs source (by simp) b).bind fun p => .refl _
    · next f args' =>
      refine (Stops.refl (index f)).bind fun k => ?_
      rw [Context.functions_under, Context.functions_under]
      cases cx.functions[k]? with
      | none => exact .refl _
      | some callee =>
        have hrest : ∀ g ∈ args', ReadsAlike cx o g :=
          fun g hg => hargs g (List.mem_cons_of_mem _ hg)
        exact (exprs_stops hrest b).bind fun p => .refl _
    · next source i => exact .refl _
    · exact .refl _
  · exact .refl _

/-- **Reading an expression is stopped by an overflow, or does not depend on what an overflow
does.** -/
theorem expr_stops (cx : Context) (o : Overflow) (f : Form) : ReadsAlike cx o f := by
  suffices h : ReadsAlike cx o f ∧ ∀ g ∈ f.items, ReadsAlike cx o g from h.1
  induction f using Form.induction with
  | int value pos =>
    refine ⟨fun b => ?_, fun g hg => (by cases hg)⟩
    rw [expr_int, expr_int]
    exact .refl _
  | hex bytes pos | sym name pos =>
    refine ⟨fun b => ?_, fun g hg => (by cases hg)⟩
    rw [expr.eq_def, expr.eq_def (cx.under o)]
    exact .refl _
  | list items pos ih => exact ⟨readsAlike_list pos ih, fun g hg => (ih g hg).1⟩

/-! ## Modules -/

/-- A stop is among the faults. -/
def Stopped (faults : List Fault) : Prop :=
  .stop .overflow ∈ faults

/-- A stop was collected in the first of two states, or they are the same. -/
def Notes {σ : Type} (p q : σ × List Fault) : Prop :=
  Stopped p.2 ∨ p = q

/-- The first of two answers has a stop among its faults, or they are the same. -/
def Collects (x y : Except (List Fault) α) : Prop :=
  (∃ fs, x = .error fs ∧ Stopped fs) ∨ x = y

theorem stopped_concat (faults : List Fault) : Stopped (faults ++ [.stop .overflow]) :=
  List.mem_append_right _ List.mem_cons_self

theorem Notes.foldl {σ : Type} {f g : σ × List Fault → Form → σ × List Fault}
    (hkeeps : ∀ p s, Stopped p.2 → Stopped (f p s).2) (hstep : ∀ p s, Notes (f p s) (g p s))
    (forms : List Form) {p q : σ × List Fault} (h : Notes p q) :
    Notes (forms.foldl f p) (forms.foldl g q) := by
  induction forms generalizing p q with
  | nil => exact h
  | cons s forms ih =>
    refine ih ?_
    rcases h with hp | rfl
    · exact .inl (hkeeps p s hp)
    · exact hstep p s

theorem store_stops (cx : Context) (o : Overflow) (b : Builder) (st : Form) :
    Stops (store (cx.under .trap) b st) (store (cx.under o) b st) := by
  unfold store
  split
  · refine (Stops.refl _).bind fun target => (expr_stops cx o _ b).bind fun p => .refl _
  · exact .refl _

theorem statement_keeps (cx : Context) (p : Builder × List Fault) (st : Form) :
    p.2 <+: (statement cx p st).2 := by
  unfold statement
  dsimp only
  split
  · split
    · exact List.prefix_rfl
    · exact List.prefix_append _ _
  · split
    · exact List.prefix_rfl
    · split
      · exact List.prefix_append _ _
      · exact List.prefix_append _ _
  · exact List.prefix_append _ _

theorem statement_notes (cx : Context) (o : Overflow) (p : Builder × List Fault) (st : Form) :
    Notes (statement (cx.under .trap) p st) (statement (cx.under o) p st) := by
  unfold statement
  dsimp only
  split
  · exact .inr rfl
  · rcases store_stops cx o p.1 st with hstop | hsame
    · -- whatever is assumed of the local, the stop is noted
      rw [hstop]
      dsimp only
      refine .inl ?_
      split
      · exact stopped_concat _
      · exact stopped_concat _
    · rw [hsame]
      exact .inr rfl
  · exact .inr rfl

theorem body_collects (cx : Context) (o : Overflow) (pos : Position) (items : List Form) :
    Collects (body (cx.under .trap) pos items) (body (cx.under o) pos items) := by
  unfold body
  cases items.getLast? with
  | none => exact .inr rfl
  | some result =>
    have hfold : Notes (items.dropLast.foldl (statement (cx.under .trap)) (.empty, []))
        (items.dropLast.foldl (statement (cx.under o)) (.empty, [])) :=
      Notes.foldl (fun p st h => (statement_keeps _ p st).subset h) (statement_notes cx o)
        items.dropLast (.inr rfl)
    dsimp only
    rcases hfold with hstop | hsame
    · left
      split
      · rw [if_neg (mt List.isEmpty_iff.1 (List.ne_nil_of_mem hstop))]
        exact ⟨_, rfl, hstop⟩
      · exact ⟨_, rfl, List.mem_append_left _ hstop⟩
    · rw [hsame]
      rcases expr_stops cx o result (items.dropLast.foldl (statement (cx.under o)) (.empty, [])).1
        with hstop | hsame
      · rw [hstop]
        exact .inl ⟨_, rfl, stopped_concat _⟩
      · rw [hsame]
        exact .inr rfl

theorem Collects.bind {x y : Except (List Fault) α} {f g : α → Except (List Fault) β}
    (h : Collects x y) (hf : ∀ a, Collects (f a) (g a)) : Collects (x >>= f) (y >>= g) := by
  rcases h with ⟨fs, rfl, hfs⟩ | rfl
  · exact .inl ⟨fs, rfl, hfs⟩
  · cases x with
    | error fs => exact .inr rfl
    | ok a => exact hf a

theorem Collects.split {x y : Except (List Fault) α} (h : Collects x y) :
    Notes (split x) (split y) := by
  rcases h with ⟨fs, rfl, hfs⟩ | rfl
  · exact .inl hfs
  · exact .inr rfl

theorem function_collects (o : Overflow) (modulus : Nat) (constants : List Literal)
    (functions : List Function) (s : Form) :
    Collects (function modulus constants functions s .trap)
      (function modulus constants functions s o) := by
  unfold function
  split
  · split
    · split
      · exact .inr rfl
      dsimp only
      split
      · exact .inr rfl
      next params _ =>
      exact (body_collects ⟨modulus, constants, functions, .function params, o⟩ o _ _).bind
        fun b => .inr rfl
    · exact .inr rfl
  · exact .inr rfl

theorem functionStep_notes (o : Overflow) (modulus : Nat) (constants : List Literal)
    (p : List Function × List Fault) (s : Form) :
    Notes (functionStep .trap modulus constants p s) (functionStep o modulus constants p s) := by
  unfold functionStep
  dsimp only
  rcases function_collects o modulus constants p.1 s with ⟨fs, hfs, hstop⟩ | hsame
  · rw [hfs]
    exact .inl (List.mem_append_right _ hstop)
  · rw [hsame]
    exact .inr rfl

theorem functionStep_keeps (o : Overflow) (modulus : Nat) (constants : List Literal)
    (p : List Function × List Fault) (s : Form) :
    p.2 <+: (functionStep o modulus constants p s).2 := by
  unfold functionStep
  dsimp only
  split
  · exact List.prefix_rfl
  · exact List.prefix_append _ _

theorem procedure_collects (cx : Context) (o : Overflow) (kind : ProcedureKind) (width : Nat)
    (s : Form) :
    Collects (procedure (cx.under .trap) kind width s) (procedure (cx.under o) kind width s) :=
  (body_collects cx o s.pos (s.items.drop 3)).bind fun _ => .inr rfl

theorem transition_notes (cx : Nat → Context) (o : Overflow) (s : Form) :
    Stopped (transition (fun w => (cx w).under .trap) s).2.2
      ∨ transition (fun w => (cx w).under .trap) s = transition (fun w => (cx w).under o) s := by
  unfold transition
  split
  · exact .inr rfl
  next width _ =>
  rcases (procedure_collects (cx width) o .transition width s).split with hstop | hsame
  · exact .inl hstop
  · dsimp only
    rw [hsame]
    exact .inr rfl

theorem evaluation_notes (cx : Nat → Context) (o : Overflow) (traceWidth : Option Nat) (s : Form) :
    Notes (evaluation (fun w => (cx w).under .trap) traceWidth s)
      (evaluation (fun w => (cx w).under o) traceWidth s) := by
  unfold evaluation
  split
  · exact .inr rfl
  · exact (procedure_collects _ o .evaluation _ s).split
  · exact .inr rfl

/-- A stop that was collected is all that is reported. -/
theorem settled_of_stopped {faults : List Fault} (h : Stopped faults) :
    ∃ why, settled faults = [.stop why] := by
  unfold settled
  cases hfind : faults.find? Fault.isStop with
  | none => exact absurd rfl (List.find?_eq_none.1 hfind _ h)
  | some f =>
    have hstop := List.find?_some hfind
    cases f with
    | stop why => exact ⟨why, rfl⟩
    | _ => cases hstop

/-- A state of three parts, of which the last are the faults. -/
theorem transitionOf_notes (cx : Nat → Context) (o : Overflow) (form : Option Form) :
    Stopped (transitionOf (fun w => (cx w).under .trap) form).2.2
      ∨ transitionOf (fun w => (cx w).under .trap) form
        = transitionOf (fun w => (cx w).under o) form := by
  cases form with
  | none => exact .inr rfl
  | some s => exact transition_notes cx o s

theorem evaluationOf_notes (cx : Nat → Context) (o : Overflow) (traceWidth : Option Nat)
    (form : Option Form) :
    Notes (evaluationOf (fun w => (cx w).under .trap) traceWidth form)
      (evaluationOf (fun w => (cx w).under o) traceWidth form) := by
  cases form with
  | none => exact .inr rfl
  | some s => exact evaluation_notes cx o traceWidth s

theorem sections_stops (o : Overflow) (pos : Position) (all : List Form) :
    (∃ why, sections pos all .trap = .error [.stop why])
      ∨ sections pos all .trap = sections pos all o := by
  have hreport : ∀ {faults : List Fault} {d : Draft}, Stopped faults →
      ∃ why, (if faults.isEmpty then .ok d else .error (settled faults) : Except (List Fault) Draft)
        = .error [.stop why] := by
    intro faults d h
    obtain ⟨why, hwhy⟩ := settled_of_stopped h
    refine ⟨why, ?_⟩
    rw [if_neg (mt List.isEmpty_iff.1 (List.ne_nil_of_mem h)), hwhy]
  rw [sections_eq, sections_eq]
  dsimp only
  generalize modulusOf (single "field" true pos all).1 = modulus
  generalize (sectionsOf "const" all).foldl (constantStep modulus.1) ([], []) = constants
  generalize staticRow (single "static" false pos all).1 = row
  -- the functions, then the transition, then the evaluation: up to the first stop all is the same
  have hfunctions : Notes
      ((sectionsOf "function" all).foldl (functionStep .trap modulus.1 constants.1) ([], []))
      ((sectionsOf "function" all).foldl (functionStep o modulus.1 constants.1) ([], [])) :=
    Notes.foldl (fun p s h => (functionStep_keeps _ _ _ p s).subset h)
      (functionStep_notes o modulus.1 constants.1) _ (.inr rfl)
  rcases hfunctions with hstop | hsame
  · refine .inl (hreport ?_)
    simp only [Stopped, List.mem_append] at hstop ⊢
    simp only [hstop, true_or, or_true]
  rw [hsame]
  generalize (sectionsOf "function" all).foldl (functionStep o modulus.1 constants.1) ([], [])
    = functions
  have htransition := transitionOf_notes
    (fun width => ⟨modulus.1, constants.1, functions.1, .procedure 1 width row, o⟩) o
    (single "transition" true pos all).1
  dsimp only [Context.under] at htransition
  rcases htransition with hstop | hsame
  · refine .inl (hreport ?_)
    simp only [Stopped, List.mem_append] at hstop ⊢
    simp only [hstop, true_or, or_true]
  rw [hsame]
  have hevaluation := evaluationOf_notes
    (fun width => ⟨modulus.1, constants.1, functions.1, .procedure 2 width row, o⟩) o
    (transitionOf (fun width => ⟨modulus.1, constants.1, functions.1, .procedure 1 width row, o⟩)
      (single "transition" true pos all).1).1 (single "evaluation" true pos all).1
  dsimp only [Context.under] at hevaluation
  rcases hevaluation with hstop | hsame
  · refine .inl (hreport ?_)
    simp only [Stopped, List.mem_append] at hstop ⊢
    simp only [hstop, or_true]
  rw [hsame]
  exact .inr rfl

theorem parse_stops (o : Overflow) (tokens : List Token) :
    (∃ why, parse tokens .trap = .error [.stop why]) ∨ parse tokens .trap = parse tokens o := by
  unfold parse
  split
  · exact .inr rfl
  · exact .inr rfl
  · split
    · exact sections_stops o _ _
    · exact .inr rfl
  · exact .inr rfl

end Grammar

/-- **Compiling is stopped, or does not depend on what an overflow does.** -/
theorem compile_stops (o : Overflow) (text : List Char) (co : CompileOptions) :
    (∃ why, compile text co .trap = .error [.stop why])
      ∨ compile text co .trap = compile text co o := by
  unfold compile
  cases Token.scan text with
  | error f => exact .inr rfl
  | ok tokens =>
    dsimp only [compileTokens]
    rcases Grammar.parse_stops o tokens with ⟨why, hwhy⟩ | hsame
    · rw [hwhy]
      exact .inl ⟨why, rfl⟩
    · rw [hsame]
      exact .inr rfl

end Arithmetization
