import Arithmetization.Proofs.NormalForm
import Arithmetization.Proofs.OperationCounts
import Arithmetization.Proofs.SharedSchemas

/-!
What a shared body gains.

Nothing that is worth a local is left in it twice (`Body.share_complete`), and it is no larger and
takes no more field operations than the body it came from (`Body.share_no_dearer`), as long as these
can be counted: a count that went round may grow (`Body.share_no_dearer_round`).

A round of hoisting puts one copy of an expression and `c` reads where `c` copies were. That is no
loss for a measure in which two reads weigh no more than a copy, and such a measure therefore never
grows under sharing (`Measure.share_le`). Nodes are the narrow case, since a copy may have two of
them; a read takes no operation at all. A local has the shape of what it stands for, so what can be
counted before sharing can be counted after it (`Measure.share_eq_zero`). The operations of a call
are those of the function that is called, so they also grow with the counts of the functions
(`OpCounts.block_mono`).
-/

set_option autoImplicit false

namespace Arithmetization

/-! ## Nothing is left twice -/

/-- If nothing that satisfies `p` is related to more than one entry of a list, then it is related to
no later entry. -/
theorem pairwise_of_countP_le_one {α : Type} {p : α → Prop} {r : α → α → Prop}
    [∀ x y, Decidable (r x y)] (hrefl : ∀ x, r x x) {xs : List α}
    (h : ∀ x ∈ xs, p x → xs.countP (r x ·) ≤ 1) : xs.Pairwise fun x y => p x → ¬r x y := by
  induction xs with
  | nil => exact .nil
  | cons x xs ih =>
    refine .cons ?_ (ih ?_)
    · intro y hy hx hxy
      have hone := h x (List.mem_cons_self ..) hx
      have hpos : 0 < xs.countP (r x ·) := List.countP_pos_iff.2 ⟨y, hy, by simpa using hxy⟩
      rw [List.countP_cons_of_pos (by simpa using hrefl x)] at hone
      omega
    · intro y hy hp
      have hle : xs.countP (r y ·) ≤ (x :: xs).countP (r y ·) :=
        (List.sublist_cons_self x xs).countP_le
      exact hle.trans (h y (List.mem_cons_of_mem _ hy) hp)

/-- **Sharing is complete.** No tree that is worth a local occurs twice in a shared body, in one
statement or in two, inside another tree or not, with all its locals stored equally often before. It
is enough that every local that the body reads is stored somewhere in it. -/
theorem Body.share_complete {b : Body} (h : b.block.ReadsStored) {o : SharingOptions}
    (ho : o.enabled = true) :
    (b.share o).block.occurrences.Pairwise fun x y =>
      x.expr.op.isTrivial = false ∧ max o.minWeight 2 ≤ x.expr.weight → ¬x.Same y := by
  have hunrepeated : (b.share o).block.Unrepeated (max o.minWeight 2) := by
    rw [Body.block_share, if_pos ho]
    exact Block.share_unrepeated h o.minWeight
  refine pairwise_of_countP_le_one (fun x => ⟨rfl, fun _ _ => rfl⟩) fun x hx hworth => ?_
  exact hunrepeated x hx hworth.1 hworth.2

/-- Nothing of two or more nodes is left twice in the transition of the module of repeated products,
where something was. -/
theorem Body.share_complete_repeated :
    ∃ s, compile Machine.repeatedText { sharing := { enabled := false } } = .ok s
      ∧ ¬s.transition.body.block.Unrepeated 2
      ∧ (s.transition.body.share { minWeight := 0 }).block.occurrences.Pairwise fun x y =>
          x.expr.op.isTrivial = false ∧ max 0 2 ≤ x.expr.weight → ¬x.Same y := by
  have hcheck : ((compile Machine.repeatedText { sharing := { enabled := false } }).toOption.any
      fun s => decide (¬s.transition.body.block.Unrepeated 2)
        && decide (∀ l ∈ s.transition.body.block.reads,
          l ∈ s.transition.body.block.stores.map Assign.target)) = true := by
    unfold Machine.repeatedText
    rewrite [String.toList_ofList]
    decide +kernel
  simp only [Option.any_eq_true, Bool.and_eq_true, decide_eq_true_iff, toOption_eq_some] at hcheck
  obtain ⟨s, hs, hrepeated, hstored⟩ := hcheck
  exact ⟨s, hs, hrepeated, Body.share_complete (o := { minWeight := 0 }) hstored rfl⟩

/-! ## Measures under sharing -/

namespace Measure

variable {M : Measure}

/-- A round of hoisting trades at least two copies for one copy and as many reads. -/
theorem hoist_le (hread : ∀ x : Expr, 2 ≤ x.weight → 2 * M.read x.shape ≤ M.expr x) {b : Block}
    {minWeight target : Nat} {s : ShareClass} (hmin : 2 ≤ minWeight)
    (h : (Classes.ofBlock b).candidate? minWeight = some (target, s)) :
    M.block (b.hoist (Classes.ofBlock b) target s) ≤ M.block b := by
  have htrade := M.block_hoist h
  have hcand := (Classes.candidate?_spec h).2
  simp only [Classes.isCandidate, Bool.and_eq_true, decide_eq_true_iff] at hcand
  obtain ⟨⟨htwice, -⟩, hweight⟩ := hcand
  have hcopy := hread s.first (hmin.trans hweight)
  -- `c` reads and a copy are no more than `c` copies, since `2 ≤ c`
  obtain ⟨c, hc⟩ := Nat.exists_eq_add_of_le htwice
  have hreads : c * M.read s.first.shape ≤ c * M.expr s.first :=
    Nat.mul_le_mul_left c (by omega)
  rw [hc, Nat.add_mul, Nat.add_mul] at htrade
  omega

/-- What all rounds and the normal form do not change. -/
theorem share_induction {P : Block → Prop}
    (hhoist : ∀ {b : Block} {minWeight target : Nat} {s : ShareClass}, 2 ≤ minWeight →
      (Classes.ofBlock b).candidate? minWeight = some (target, s) → P b →
      P (b.hoist (Classes.ofBlock b) target s))
    (hnormalize : ∀ b : Block, P b → P b.normalize) (o : SharingOptions) {b : Body}
    (hb : P b.block) : P (b.share o).block := by
  have hrounds : ∀ (rounds : Nat) (b : Block), P b →
      P (b.hoistAll (max o.minWeight 2) rounds) := by
    intro rounds
    induction rounds with
    | zero => exact fun b hb => hb
    | succ rounds ih =>
      intro b hb
      rw [Block.hoistAll]
      split
      · exact hb
      · next target s hcand => exact ih _ (hhoist (Nat.le_max_right _ _) hcand hb)
  rw [Body.block_share]
  by_cases ho : o.enabled = true
  · rw [if_pos ho, Block.share]
    exact hnormalize _ (hrounds _ _ hb)
  · rwa [if_neg ho]

/-- **Sharing does not add to a measure** in which two reads weigh no more than any tree of two
nodes. -/
theorem share_le (hread : ∀ x : Expr, 2 ≤ x.weight → 2 * M.read x.shape ≤ M.expr x)
    (o : SharingOptions) (b : Body) : M.block (b.share o).block ≤ M.block b.block :=
  share_induction (P := fun c => M.block c ≤ M.block b.block)
    (fun hmin hcand hle => (hoist_le hread hmin hcand).trans hle)
    (fun c hle => (M.normalize_le c).trans hle) o (Nat.le_refl _)

/-- **Sharing adds nothing to nothing**, if a read weighs no more than what it stands for. -/
theorem share_eq_zero (hread : ∀ x : Expr, M.read x.shape ≤ M.expr x) (o : SharingOptions)
    {b : Body} (hb : M.block b.block = 0) : M.block (b.share o).block = 0 := by
  refine share_induction (P := fun c => M.block c = 0) ?_ ?_ o hb
  · intro b minWeight target s _ hcand hb
    -- the expression is in the block, so nothing is counted in it
    obtain ⟨e, he, hfirst, -⟩ := Classes.ofBlock_first (Classes.candidate?_spec hcand).1
    have hcopy : M.expr s.first ≤ M.block b := (M.expr_le_of_mem_subterms hfirst).trans
      (M.expr_le_of_mem_exprs (List.mem_of_getElem? he))
    have hzero : M.read s.first.shape = 0 := by
      have := hread s.first
      omega
    have htrade := M.block_hoist hcand
    rw [hzero] at htrade
    omega
  · intro c hc
    have := M.normalize_le c
    omega

/-- A measure is no greater than another one if it is so wherever `N` counts nothing. -/
theorem block_mono {M' N : Measure}
    (h : ∀ op s args, N.node op s args = 0 → M.node op s args ≤ M'.node op s args) {b : Block}
    (hb : N.block b = 0) : M.block b ≤ M'.block b := by
  have hexpr : ∀ e, N.expr e = 0 → M.expr e ≤ M'.expr e := by
    intro e
    induction e using Expr.induction with
    | node op shape args ih =>
      intro he
      rw [expr_node, Nat.add_eq_zero_iff] at he
      rw [expr_node, expr_node]
      refine Nat.add_le_add (h op shape args he.1) (List.sum_le_sum fun a ha => ih a ha ?_)
      have hle := List.le_sum_of_mem (List.mem_map_of_mem (f := N.expr) ha)
      omega
  rw [block_eq_sum, block_eq_sum]
  refine List.sum_le_sum fun e he => hexpr e ?_
  have hle := N.expr_le_of_mem_exprs he
  omega

end Measure

/-! ## Field operations -/

namespace OpCounts

/-- What `y` counts, `x` counts too and finds no more. -/
def NoDearer (x y : Except Stop OpCounts) : Prop :=
  ∀ c, y = .ok c → ∃ c', x = .ok c' ∧ c' ≤ c

theorem NoDearer.refl (x : Except Stop OpCounts) : NoDearer x x :=
  fun c hc => ⟨c, hc, le_refl c⟩

theorem NoDearer.trans {x y z : Except Stop OpCounts} (hxy : NoDearer x y) (hyz : NoDearer y z) :
    NoDearer x z := by
  intro c hc
  obtain ⟨d, hd, hdc⟩ := hyz c hc
  obtain ⟨e, he, hed⟩ := hxy d hd
  exact ⟨e, he, le_trans hed hdc⟩

variable {o : Overflow} (ho : o ≠ .wrap) (constants : List Literal)

include ho

/-- Blocks are compared by what can be counted in them and by their sums. -/
theorem block_noDearer {cs cs' : List (Except Stop OpCounts)} {b b' : Block}
    (hfailures : (failures o constants cs).block b = 0 → (failures o constants cs').block b' = 0)
    (hcounts : (failures o constants cs).block b = 0 → ∀ k,
      (counts o constants cs' k).block b' ≤ (counts o constants cs k).block b) :
    NoDearer (block o constants cs' b') (block o constants cs b) := by
  intro c hc
  obtain ⟨hzero, hc⟩ := (block_eq_ok constants cs ho).1 hc
  have hle := hcounts hzero
  refine ⟨ofKinds fun k => (counts o constants cs' k).block b',
    (block_eq_ok constants cs' ho).2 ⟨hfailures hzero, fun k => ⟨of_ofKinds _ k, ?_⟩⟩,
    le_iff.2 fun k => ?_⟩
  · exact (hc k).2.mono (hle k)
  · rw [of_ofKinds, (hc k).1]
    exact hle k

/-- A shared body takes no more operations, among the same functions. -/
theorem block_share (cs : List (Except Stop OpCounts)) (s : SharingOptions) (b : Body) :
    NoDearer (block o constants cs (b.share s).block) (block o constants cs b.block) := by
  refine block_noDearer ho constants (fun hzero => Measure.share_eq_zero ?_ s hzero) fun _ k =>
    Measure.share_le (fun _ _ => Nat.zero_le _) s b
  -- an expression that can be counted has a shape whose elements can be counted
  rintro ⟨op, shape, args⟩
  rw [Measure.expr_node]
  refine Nat.le_trans ?_ (Nat.le_add_right ..)
  show (if (o.keep shape.size).isOk then 0 else 1)
    ≤ if (node o constants cs op shape args).isOk then 0 else 1
  cases hnode : node o constants cs op shape args with
  | error e => exact (ite_eq_or_eq _ _ _).elim (fun h => h ▸ Nat.zero_le _) Nat.le_of_eq
  | ok c =>
    obtain ⟨n, hn⟩ := keep_of_node o constants cs hnode
    rw [hn]
    exact Nat.le_refl _

/-- Costlier functions make a block no cheaper. -/
theorem block_mono {cs cs' : List (Except Stop OpCounts)}
    (h : ∀ f, NoDearer (cs'.getD f (.ok {})) (cs.getD f (.ok {}))) (b : Block) :
    NoDearer (block o constants cs' b) (block o constants cs b) := by
  have hnode : ∀ op s args,
      NoDearer (node o constants cs' op s args) (node o constants cs op s args) := by
    intro op s args
    by_cases hop : ∃ f, op = .call f
    · obtain ⟨f, rfl⟩ := hop
      intro c hc
      obtain ⟨n, hn, hc⟩ := bind_eq_ok.1 hc
      obtain ⟨c', hc', hle⟩ := h f c hc
      exact ⟨c', bind_eq_ok.2 ⟨n, hn, hc'⟩, hle⟩
    · rw [node_callees o constants cs' cs (not_exists.1 hop)]
      exact .refl _
  -- wherever a node can be counted
  have hok : ∀ {op s args}, (failures o constants cs).node op s args = 0 →
      ∃ c c', node o constants cs op s args = .ok c ∧ node o constants cs' op s args = .ok c'
        ∧ c' ≤ c := by
    intro op s args hzero
    change (if (node o constants cs op s args).isOk then 0 else 1) = 0 at hzero
    cases hc : node o constants cs op s args with
    | error e =>
      rw [hc] at hzero
      cases hzero
    | ok c =>
      obtain ⟨c', hc', hle⟩ := hnode op s args c hc
      exact ⟨c, c', rfl, hc', hle⟩
  refine block_noDearer ho constants (fun hzero => ?_) fun hzero k => ?_
  · refine Nat.eq_zero_of_le_zero (hzero ▸ Measure.block_mono (fun op s args h0 => ?_) hzero)
    obtain ⟨c, c', -, hc', -⟩ := hok h0
    show (if (node o constants cs' op s args).isOk then 0 else 1) ≤ _
    rw [hc']
    exact Nat.zero_le _
  · refine Measure.block_mono (fun op s args h0 => ?_) hzero
    obtain ⟨c, c', hc, hc', hle⟩ := hok h0
    show countOf k (node o constants cs' op s args) ≤ countOf k (node o constants cs op s args)
    rw [hc, hc']
    exact le_iff.1 hle k

/-- Shared functions take no more operations, however deep their calls nest. -/
theorem callees_share (functions : List Function) (s : SharingOptions) (depth f : Nat) :
    NoDearer ((callees o constants (functions.map (Function.share s)) depth).getD f (.ok {}))
      ((callees o constants functions depth).getD f (.ok {})) := by
  induction depth generalizing f with
  | zero =>
    rw [getD_callees_zero, getD_callees_zero]
    exact .refl _
  | succ depth ih =>
    rw [getD_callees_succ, getD_callees_succ, List.getElem?_map]
    cases functions[f]? with
    | none =>
      rw [Option.map_none, Option.map_none, Option.map_none]
      exact .refl _
    | some g =>
      exact (block_share ho constants _ s g.body).trans (block_mono ho constants ih g.body.block)

/-- Sharing a body and the functions it may call makes it take no more operations. -/
theorem body_share (functions : List Function) (s : SharingOptions) (b : Body) :
    NoDearer (body o constants (functions.map (Function.share s)) (b.share s))
      (body o constants functions b) := by
  rw [body, body, List.length_map]
  exact (block_share ho constants _ s b).trans
    (block_mono ho constants (callees_share ho constants functions s functions.length) b.block)

omit ho

/-- What `x` counts is no more than what `y` counts: on every machine, if `y` can be counted without
an overflow, and in any case if counts had no range. -/
structure Saves (x y : Overflow → Except Stop OpCounts) : Prop where
  machines : ∀ c, y .trap = .ok c → ∃ c', c' ≤ c ∧ ∀ o, y o = .ok c ∧ x o = .ok c'
  exact : ∃ c c', y .exact = .ok c ∧ x .exact = .ok c' ∧ c' ≤ c

theorem Saves.of_noDearer {functions functions' : List Function} {b b' : Body}
    (h : ∀ o, o ≠ .wrap →
      NoDearer (body o constants functions' b') (body o constants functions b)) :
    Saves (body · constants functions' b') (body · constants functions b) where
  machines c hc := by
    obtain ⟨c', hc', hle⟩ := h .trap (by decide) c hc
    exact ⟨c', hle, fun o => ⟨body_refines constants functions b o c hc,
      body_refines constants functions' b' o c' hc'⟩⟩
  exact := by
    obtain ⟨c, hc⟩ := (body_ends constants .exact functions b).resolve_right fun h => (by cases h.1)
    obtain ⟨c', hc', hle⟩ := h .exact (by decide) c hc
    exact ⟨c, c', hc, hc', hle⟩

end OpCounts

/-! ## Sizes and costs -/

theorem Body.weight_share_le (o : SharingOptions) (b : Body) :
    (b.share o).block.weight ≤ b.block.weight := by
  rw [← Measure.nodes_block, ← Measure.nodes_block]
  refine Measure.share_le (fun x hx => ?_) o b
  exact hx

/-- Whether a body of a schema has no more nodes, and takes no more operations with all that it
calls, than a body of another schema. -/
def Schema.NoDearer (s s' : Schema) (b b' : Body) : Prop :=
  b.block.weight ≤ b'.block.weight
    ∧ OpCounts.Saves (OpCounts.body · s.constants s.functions b)
      (OpCounts.body · s'.constants s'.functions b')

/-- **Sharing makes nothing larger or dearer.** A shared body has no more nodes, and takes no more
additions, products and inversions, than the body it came from, among any functions and also if
these are shared with it. Of a text that compiles without sharing, every body is therefore no larger
and no dearer once the text is compiled with sharing. The operations are those that a machine
counts if it counts those of the body before sharing without an overflow. -/
theorem Body.share_no_dearer (o : SharingOptions) :
    (∀ (constants : List Literal) (functions : List Function) (b : Body),
        (b.share o).block.weight ≤ b.block.weight
        ∧ OpCounts.Saves (OpCounts.body · constants functions (b.share o))
          (OpCounts.body · constants functions b)
        ∧ OpCounts.Saves
          (OpCounts.body · constants (functions.map (Function.share o)) (b.share o))
          (OpCounts.body · constants functions b))
    ∧ ∀ (text : List Char) (co : CompileOptions) (plain : SharingOptions) (s : Schema),
        plain.enabled = false → compile text { co with sharing := plain } = .ok s →
        ∃ s', compile text { co with sharing := o } = .ok s'
          ∧ List.Forall₂ (fun f' f => s'.NoDearer s f'.body f.body) s'.functions s.functions
          ∧ s'.NoDearer s s'.transition.body s.transition.body
          ∧ s'.NoDearer s s'.evaluation.body s.evaluation.body := by
  constructor
  · intro constants functions b
    exact ⟨b.weight_share_le o,
      .of_noDearer constants fun _ hm => OpCounts.block_share hm constants _ o b,
      .of_noDearer constants fun _ hm => OpCounts.body_share hm constants functions o b⟩
  · intro text co plain s hplain hs
    have hall : ∀ b : Body, (s.share o).NoDearer s (b.share o) b := fun b =>
      ⟨b.weight_share_le o,
        .of_noDearer s.constants fun _ hm => OpCounts.body_share hm s.constants s.functions o b⟩
    refine ⟨s.share o, compile_share hplain hs o, ?_, hall _, hall _⟩
    exact List.forall₂_map_left_iff.2 (List.forall₂_same.2 fun f _ => hall f.body)

/-- The bound for the transition of the module of repeated products. -/
theorem Body.share_no_dearer_repeated :
    ∃ s s' c, compile Machine.repeatedText { sharing := { enabled := false } } = .ok s
      ∧ compile Machine.repeatedText {} = .ok s'
      ∧ s'.transition.body.block.weight ≤ 23
      ∧ (∀ o, OpCounts.body o s'.constants s'.functions s'.transition.body = .ok c)
      ∧ c ≤ ⟨4, 4, 0⟩ := by
  have hcheck : ((compile Machine.repeatedText { sharing := { enabled := false } }).toOption.any
      fun s => s.transition.body.block.weight == 23
        && (OpCounts.body .trap s.constants s.functions s.transition.body).toOption
          == some ⟨4, 4, 0⟩) = true := by
    unfold Machine.repeatedText
    rewrite [String.toList_ofList]
    decide +kernel
  simp only [Option.any_eq_true, Bool.and_eq_true, beq_iff_eq, toOption_eq_some] at hcheck
  obtain ⟨s, hs, hweight, hcounts⟩ := hcheck
  obtain ⟨s', hs', -, ⟨hnodes, hops⟩, -⟩ := (Body.share_no_dearer {}).2 _ {} _ s rfl hs
  obtain ⟨c, hle, hall⟩ := hops.machines _ hcounts
  exact ⟨s, s', c, hs, hs', hweight ▸ hnodes, fun o => (hall o).2, hle⟩

/-- A module with a function that subtracts a long vector from itself and does not use the result.
-/
def unusedText : List Char :=
  "(module (field prime 97)
    (function (result scalar) (param vector 9223372036854775808)
      (local vector 9223372036854775808)
      (store.local 0 (sub (load.param 0) (load.param 0)))
      (add (get (neg (load.param 0)) 0) 1))
    (transition (span 1) (result vector 1) (load.trace 0))
    (evaluation (span 2) (result vector 1) (sub (load.trace 1) (load.trace 0))))".toList

/-- **Counts that went round.** The function makes `2 ^ 64 + 1` additions, and `2 ^ 63 + 1` once the
difference is dropped; where counts go round, it makes only one before that. -/
theorem Body.share_no_dearer_round :
    ∃ s f, compile unusedText { sharing := { enabled := false } } = .ok s
      ∧ s.functions[0]? = some f
      ∧ OpCounts.body .exact s.constants s.functions f.body = .ok ⟨18446744073709551617, 0, 0⟩
      ∧ OpCounts.body .trap s.constants s.functions f.body = .error .overflow
      ∧ OpCounts.body .wrap s.constants s.functions f.body = .ok ⟨1, 0, 0⟩
      ∧ ∀ o, OpCounts.body o s.constants s.functions (f.body.share {})
          = .ok ⟨9223372036854775809, 0, 0⟩ := by
  have hcheck : ((compile unusedText { sharing := { enabled := false } }).toOption.any
      fun s => s.functions[0]?.any fun f =>
        decide (OpCounts.body .exact s.constants s.functions f.body
          = .ok ⟨18446744073709551617, 0, 0⟩)
        && decide (OpCounts.body .trap s.constants s.functions f.body = .error .overflow)
        && decide (OpCounts.body .wrap s.constants s.functions f.body = .ok ⟨1, 0, 0⟩)
        && decide (f.body.block.Unrepeated (max (SharingOptions.minWeight {}) 2))
        && decide (OpCounts.block .trap s.constants
          (OpCounts.callees .trap s.constants s.functions s.functions.length)
          f.body.block.normalize = .ok ⟨9223372036854775809, 0, 0⟩)) = true := by
    unfold unusedText
    rewrite [String.toList_ofList]
    decide +kernel
  simp only [Option.any_eq_true, Bool.and_eq_true, decide_eq_true_eq, toOption_eq_some] at hcheck
  obtain ⟨s, hs, f, hf, ⟨⟨⟨hexact, htrap⟩, hwrap⟩, hunrepeated⟩, hshared⟩ := hcheck
  refine ⟨s, f, hs, hf, hexact, htrap, hwrap, fun o => OpCounts.body_refines _ _ _ o _ ?_⟩
  -- nothing is repeated, so there is only the local to drop
  rw [OpCounts.body, Body.block_share, if_pos rfl, Block.share,
    Block.hoistAll_eq_self hunrepeated]
  exact hshared

end Arithmetization
