import Arithmetization.Proofs.SharedBodies

/-!
Rounds of sharing come to an end.

Sharing goes on as long as there is a candidate, and nothing in a round says that there will be
fewer of them: every round declares a local and adds a statement, and two copies of an expression of
two nodes leave as many nodes as there were. So the rounds are looked at here without the bound that
sharing puts on them, as steps from a block to the next (`Block.Round`) and as runs of such steps
(`Block.Rounds`).

What does fall is the number of operations. Copies of operations go, one copy stays, and only reads
come in their place, so a round takes at least one operation away and leaves at least one. A run is
therefore shorter than the number of operations it starts with, and every run is a part of the one
that goes on to the end (`Body.rounds_end`). The locals that are read along the way are declared, so
that the number of stores before a read can always be looked up.
-/

set_option autoImplicit false

namespace Arithmetization

namespace Block

/-- One round of sharing: there is a candidate, and it is hoisted. -/
def Round (minWeight : Nat) (b c : Block) : Prop :=
  ∃ target s, (Classes.ofBlock b).candidate? minWeight = some (target, s)
    ∧ c = b.hoist (Classes.ofBlock b) target s

/-- Rounds of sharing one after the other. -/
inductive Rounds (minWeight : Nat) : Nat → Block → Block → Prop where
  | nil (b : Block) : Rounds minWeight 0 b b
  | cons {n : Nat} {b c d : Block} (head : Round minWeight b c) (tail : Rounds minWeight n c d) :
    Rounds minWeight (n + 1) b d

variable {minWeight : Nat} {b c d : Block}

/-! ## One round -/

/-- There is at most one way to go on. -/
theorem Round.unique (h : Round minWeight b c) (h' : Round minWeight b d) : c = d := by
  obtain ⟨target, s, hcand, rfl⟩ := h
  obtain ⟨target', s', hcand', rfl⟩ := h'
  rw [hcand, Option.some.injEq, Prod.mk.injEq] at hcand'
  rw [hcand'.1, hcand'.2]

/-- There is a way to go on exactly if something worth a local is repeated. -/
theorem exists_round_iff : (∃ c, Round minWeight b c) ↔ ¬b.Unrepeated minWeight := by
  rw [← Classes.candidate?_eq_none_iff, ← ne_eq, Option.ne_none_iff_exists']
  constructor
  · rintro ⟨c, target, s, hcand, -⟩
    exact ⟨(target, s), hcand⟩
  · rintro ⟨p, hcand⟩
    exact ⟨_, p.1, p.2, hcand, rfl⟩

/-- A round is a hoisting. -/
theorem Round.exists_hoisting (h : Round minWeight b c) : ∃ step : Hoisting b, c = step.block := by
  obtain ⟨target, s, hcand, rfl⟩ := h
  exact Block.exists_hoisting hcand

theorem Round.operations_lt (h : Round minWeight b c) : c.operations < b.operations := by
  obtain ⟨target, s, hcand, rfl⟩ := h
  exact operations_hoist_lt hcand

/-- The copy that is stored is an operation. -/
theorem Round.operations_pos (h : Round minWeight b c) : 0 < c.operations := by
  obtain ⟨step, rfl⟩ := h.exists_hoisting
  have hpos := Expr.operations_pos step.nontrivial
  have hle := List.le_sum_of_mem
    (List.mem_map_of_mem (f := fun s : Assign => s.value.operations) step.mem_stores_new)
  rw [operations_eq]
  dsimp only at hle
  omega

/-! ## Runs -/

/-- What every round keeps is kept by a run. -/
theorem Rounds.keeps {motive : Block → Prop}
    (step : ∀ {b : Block} (h : Hoisting b), motive b → motive h.block) {n : Nat}
    (h : Rounds minWeight n b c) (hb : motive b) : motive c := by
  induction h with
  | nil => exact hb
  | cons head _ ih =>
    obtain ⟨hoisting, rfl⟩ := head.exists_hoisting
    exact ih (step hoisting hb)

/-- **Every round costs an operation.** -/
theorem Rounds.add_operations_le {n : Nat} (h : Rounds minWeight n b c) :
    n + c.operations ≤ b.operations := by
  induction h with
  | nil => omega
  | cons head _ ih =>
    have := head.operations_lt
    omega

theorem Rounds.operations_pos {n : Nat} (h : Rounds minWeight n b c) (hb : 0 < b.operations) :
    0 < c.operations := by
  induction h with
  | nil => exact hb
  | cons head _ ih => exact ih head.operations_pos

/-- A run that cannot go on has every other run as a part of it. -/
theorem Rounds.goes_on {k n : Nat} (h : Rounds minWeight k b c) (hn : Rounds minWeight n b d)
    (hd : ∀ e, ¬Round minWeight d e) : k ≤ n ∧ Rounds minWeight (n - k) c d := by
  induction h generalizing n with
  | nil => exact ⟨Nat.zero_le _, hn⟩
  | cons head _ ih =>
    cases hn with
    | nil => exact absurd head (hd _)
    | cons head' tail' =>
      rw [← head.unique head'] at tail'
      obtain ⟨hle, htail⟩ := ih tail'
      refine ⟨by omega, ?_⟩
      rwa [Nat.add_sub_add_right]

/-- Hoisting up to a number of times is a run of at most as many rounds. -/
theorem rounds_hoistAll (minWeight rounds : Nat) (b : Block) :
    ∃ n ≤ rounds, Rounds minWeight n b (hoistAll minWeight rounds b) := by
  induction rounds generalizing b with
  | zero => exact ⟨0, Nat.le_refl _, .nil b⟩
  | succ rounds ih =>
    rw [hoistAll]
    split
    · exact ⟨0, Nat.zero_le _, .nil b⟩
    · next target s hcand =>
      obtain ⟨n, hn, htail⟩ := ih (b.hoist (Classes.ofBlock b) target s)
      exact ⟨n + 1, Nat.succ_le_succ hn, .cons ⟨target, s, hcand, rfl⟩ htail⟩

/-! ## Locals along the way -/

/-- A round reads declared locals if it started from such reads. -/
theorem Hoisting.reads_lt (step : Hoisting b) (h : ∀ l ∈ b.reads, l < b.locals.length) :
    ∀ l ∈ step.block.reads, l < step.block.locals.length := by
  intro l hl
  rw [step.length_locals]
  rcases step.mem_reads hl with rfl | hl
  · exact Nat.lt_succ_self _
  · exact Nat.lt_succ_of_lt (h l hl)

theorem Hoisting.target_lt (step : Hoisting b) (h : ∀ s ∈ b.stores, s.target < b.locals.length) :
    ∀ s ∈ step.block.stores, s.target < step.block.locals.length := by
  intro t ht
  rw [step.length_locals]
  obtain ht | rfl | ⟨s, hs, p, rfl⟩ := step.mem_stores ht
  · exact Nat.lt_succ_of_lt (h t ht)
  · exact Nat.lt_succ_self _
  · exact Nat.lt_succ_of_lt (h s hs)

end Block

/-- **Sharing comes to an end.** Let every local that a body reads be declared. From its block there
is a run of rounds to one with which no further round is possible, and sharing gives the normal form
of that one. The run has at most as many rounds as the statements have operations; if they have any,
it has fewer, so that the last search for a candidate may be counted too. Every run of rounds from
the block is a beginning of this one, and the blocks along the way read declared locals only, and
store to such if the body does. -/
theorem Body.rounds_end {b : Body} (hreads : ∀ l ∈ b.block.reads, l < b.locals.length)
    (minWeight : Nat) :
    ∃ n last, Block.Rounds (max minWeight 2) n b.block last
      ∧ (∀ c, ¬Block.Round (max minWeight 2) last c)
      ∧ n ≤ b.block.operations ∧ (0 < b.block.operations → n < b.block.operations)
      ∧ b.share { minWeight := minWeight } = last.normalize.toBody
      ∧ ∀ k c, Block.Rounds (max minWeight 2) k b.block c →
          k ≤ n ∧ Block.Rounds (max minWeight 2) (n - k) c last
            ∧ (∀ l ∈ c.reads, l < c.locals.length)
            ∧ ((∀ s ∈ b.stores, s.target < b.locals.length) →
                ∀ s ∈ c.stores, s.target < c.locals.length) := by
  obtain ⟨n, hn, hrun⟩ := Block.rounds_hoistAll (max minWeight 2) b.block.operations b.block
  have hlast : ∀ c, ¬Block.Round (max minWeight 2)
      (b.block.hoistAll (max minWeight 2) b.block.operations) c := by
    intro c hc
    exact Block.exists_round_iff.1 ⟨c, hc⟩ (Block.hoistAll_unrepeated (Nat.le_refl _))
  refine ⟨n, _, hrun, hlast, hn, ?_, rfl, ?_⟩
  · intro hpos
    have hleft := hrun.operations_pos hpos
    have hle := hrun.add_operations_le
    omega
  · intro k c hc
    obtain ⟨hle, hrest⟩ := hc.goes_on hrun hlast
    refine ⟨hle, hrest, hc.keeps (fun step h => step.reads_lt h) hreads, fun htargets => ?_⟩
    refine hc.keeps (fun step h => step.target_lt h) fun s hs => ?_
    obtain ⟨t, ht, rfl⟩ := List.mem_map.1 hs
    exact htargets t ht

/-- The transition of the module of repeated products has something to share, so its run has a
round, and by the number of its operations it has at most twelve. -/
theorem Body.rounds_end_repeated :
    ∃ s, compile Machine.repeatedText { sharing := { enabled := false } } = .ok s
      ∧ (∀ l ∈ s.transition.body.block.reads, l < s.transition.body.locals.length)
      ∧ ∃ n last, Block.Rounds (max 0 2) n s.transition.body.block last
        ∧ (∀ c, ¬Block.Round (max 0 2) last c) ∧ 0 < n ∧ n < 13 := by
  have hcheck : ((compile Machine.repeatedText { sharing := { enabled := false } }).toOption.any
      fun s => decide (¬s.transition.body.block.Unrepeated 2)
        && decide (∀ l ∈ s.transition.body.block.reads, l < s.transition.body.locals.length)
        && s.transition.body.block.operations == 13) = true := by
    unfold Machine.repeatedText
    rewrite [String.toList_ofList]
    decide +kernel
  simp only [Option.any_eq_true, Bool.and_eq_true, decide_eq_true_iff, beq_iff_eq,
    toOption_eq_some] at hcheck
  obtain ⟨s, hs, ⟨hrepeated, hreads⟩, hcount⟩ := hcheck
  obtain ⟨n, last, hrun, hlast, -, hfewer, -, hall⟩ := Body.rounds_end hreads 0
  obtain ⟨c, hc⟩ := Block.exists_round_iff.2 hrepeated
  have hfirst := (hall 1 c (.cons hc (.nil c))).1
  exact ⟨s, hs, hreads, n, last, hrun, hlast, by omega, by omega⟩

end Arithmetization
