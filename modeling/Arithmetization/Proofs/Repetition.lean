import Arithmetization.Proofs.Measures

/-!
How often an expression occurs.

An occurrence is a subterm of a statement together with the stores before that statement. Two of
them are the same if they are one tree and every local in it has been stored equally often before
both. The numbers that sharing gives out tell exactly these occurrences apart
(`Classes.isOccurrence_eq`), and a class counts them (`Classes.count_eq`), so there is a candidate
exactly if something worth a local occurs twice (`Classes.candidate?_eq_none_iff`).

A round of hoisting leaves one copy of the repeated expression in place of all its occurrences. They
are at least two and none of them is inside another, so there are fewer operations afterwards
(`Block.operations_hoist_lt`) and rounds come to an end: after as many of them as the block has
operations nothing is repeated (`Block.hoistAll_unrepeated`).
-/

set_option autoImplicit false

namespace Arithmetization

namespace Expr

mutual

/-- Whether two expressions are the same node by node. -/
def decEq : (a b : Expr) → Decidable (a = b)
  | .node op shape args, .node op' shape' args' =>
    if hop : op = op' then
      if hshape : shape = shape' then
        match decEqAll args args' with
        | isTrue hargs => isTrue (by rw [hop, hshape, hargs])
        | isFalse hargs => isFalse fun h => hargs (Expr.node.inj h).2.2
      else isFalse fun h => hshape (Expr.node.inj h).2.1
    else isFalse fun h => hop (Expr.node.inj h).1

/-- The same for lists of operands. -/
def decEqAll : (as bs : List Expr) → Decidable (as = bs)
  | [], [] => isTrue rfl
  | [], _ :: _ => isFalse fun h => by cases h
  | _ :: _, [] => isFalse fun h => by cases h
  | a :: as, b :: bs =>
    match decEq a b, decEqAll as bs with
    | isTrue h, isTrue hs => isTrue (by rw [h, hs])
    | isFalse h, _ => isFalse fun heq => h (List.cons.inj heq).1
    | _, isFalse hs => isFalse fun heq => hs (List.cons.inj heq).2

end

instance : DecidableEq Expr := decEq

end Expr

/-! ## Occurrences -/

/-- An expression inside a statement, with the targets of the stores before the statement. -/
structure Occurrence where
  stored : List Nat
  expr : Expr

/-- Whether two occurrences are the same: one tree, and every local in it has been stored equally
often before both. -/
def Occurrence.Same (o o' : Occurrence) : Prop :=
  o'.expr = o.expr ∧ ∀ l ∈ o.expr.reads, o'.stored.count l = o.stored.count l

instance (o o' : Occurrence) : Decidable (o.Same o') :=
  inferInstanceAs (Decidable (_ ∧ _))

namespace Block

/-- The occurrences in the given stores and in the result after them. -/
def occurrencesFrom (result : Expr) : List Nat → List Assign → List Occurrence
  | stored, [] => result.subterms.map (⟨stored, ·⟩)
  | stored, s :: rest =>
    s.value.subterms.map (⟨stored, ·⟩) ++ occurrencesFrom result (s.target :: stored) rest

/-- All occurrences in a block. -/
def occurrences (b : Block) : List Occurrence :=
  occurrencesFrom b.result [] b.stores

/-- Nothing that is worth a local occurs twice. -/
def Unrepeated (minWeight : Nat) (b : Block) : Prop :=
  ∀ o ∈ b.occurrences, o.expr.op.isTrivial = false → minWeight ≤ o.expr.weight →
    b.occurrences.countP (o.Same ·) ≤ 1

instance (minWeight : Nat) (b : Block) : Decidable (b.Unrepeated minWeight) :=
  inferInstanceAs (Decidable (∀ o ∈ _, _))

/-- An occurrence is a subterm of a statement, met after the stores before that statement. -/
theorem mem_occurrencesFrom {result : Expr} {stored : List Nat} {ss : List Assign}
    {o : Occurrence} :
    o ∈ occurrencesFrom result stored ss ↔
      ∃ j e, (ss.map Assign.value ++ [result])[j]? = some e ∧ o.expr ∈ e.subterms
        ∧ o.stored = Classes.history stored ss j := by
  induction ss generalizing stored with
  | nil =>
    rw [occurrencesFrom, List.mem_map]
    constructor
    · rintro ⟨x, hx, rfl⟩
      exact ⟨0, result, rfl, hx, rfl⟩
    · rintro ⟨j, e, he, hx, hstored⟩
      cases j with
      | zero =>
        obtain rfl : result = e := by simpa using he
        exact ⟨o.expr, hx, by rw [← Classes.history_zero stored [], ← hstored]⟩
      | succ j => simp at he
  | cons s ss ih =>
    rw [occurrencesFrom, List.mem_append, List.mem_map, ih]
    constructor
    · rintro (⟨x, hx, rfl⟩ | ⟨j, e, he, hx, hstored⟩)
      · exact ⟨0, s.value, rfl, hx, rfl⟩
      · exact ⟨j + 1, e, by simpa using he, hx, by rw [hstored, Classes.history_cons_succ]⟩
    · rintro ⟨j, e, he, hx, hstored⟩
      cases j with
      | zero =>
        obtain rfl : s.value = e := by simpa using he
        refine .inl ⟨o.expr, hx, ?_⟩
        rw [← Classes.history_zero stored (s :: ss), ← hstored]
      | succ j =>
        rw [Classes.history_cons_succ] at hstored
        exact .inr ⟨j, e, by simpa using he, hx, hstored⟩

end Block

/-! ## Classes count occurrences -/

namespace Classes

/-- The number of an expression depends on the tree and on how often its locals have been stored. -/
theorem find?_congr (c : Classes) {σ τ : List Nat} {e : Expr}
    (h : ∀ l ∈ e.reads, σ.count l = τ.count l) : c.find? σ e = c.find? τ e := by
  induction e using Expr.induction with
  | node op shape args ih =>
    have hargs : args.map (c.find? σ) = args.map (c.find? τ) := by
      refine List.map_congr_left fun a ha => ih a ha fun l hl => ?_
      exact h l (Expr.mem_reads_node.2 (.inr ⟨a, ha, hl⟩))
    have hkey : ∀ ids, key σ op shape ids = key τ op shape ids := by
      intro ids
      unfold key
      cases hop : op.local? with
      | none => rfl
      | some l => simp [h l (Expr.mem_reads_node.2 (.inl hop))]
    have hnode : ∀ ρ, c.find? ρ (.node op shape args)
        = ((args.map (c.find? ρ)).mapM id).bind fun ids => c.ids[key ρ op shape ids]? := by
      intro ρ
      rw [find?, Expr.fold_node]
    rw [hnode, hnode, hargs]
    simp only [hkey]

/-- **Numbers tell occurrences apart.** Among valid classes, what has the number of an occurrence is
the same occurrence. -/
theorem isOccurrence_eq {c : Classes} (hc : c.Valid) {o : Occurrence} {i : Nat}
    (h : c.find? o.stored o.expr = some i) (o' : Occurrence) :
    c.isOccurrence i o'.stored o'.expr = decide (o.Same o') := by
  rw [isOccurrence, Bool.eq_iff_iff, beq_iff_eq, decide_eq_true_iff]
  constructor
  · intro h'
    obtain ⟨heq, hcount⟩ := find?_inj hc h h'
    exact ⟨heq.symm, fun l hl => (hcount l hl).symm⟩
  · rintro ⟨heq, hcount⟩
    rw [heq, c.find?_congr hcount, h]

/-- How many occurrences a class has counted. -/
def tally (c : Classes) (i : Nat) : Nat :=
  (c.table[i]?.map ShareClass.count).getD 0

/-- The class that one more occurrence is counted for, and no other. -/
theorem tally_record {c : Classes} (hc : c.Valid) (k : ClassKey) (stmt : Nat) (e : Expr) (i : Nat) :
    (c.record k stmt e).1.tally i
      = c.tally i + if (c.record k stmt e).2 = i then 1 else 0 := by
  obtain ⟨ids, table⟩ := c
  rw [record]
  dsimp only
  cases hk : ids[k]? with
  | some id =>
    have hid : id < table.size := hc.lt_size hk
    simp only [tally, Array.getElem?_modify]
    by_cases h : id = i
    · subst h
      simp [Array.getElem?_eq_getElem hid]
    · simp [h]
  | none =>
    simp only [tally, Array.getElem?_push]
    by_cases h : i = table.size
    · subst h
      simp
    · simp [h, Ne.symm h]

/-- Numbering several expressions counts the occurrences in each. -/
theorem tally_visitAll {stored : List Nat} {stmt i : Nat} {es : List Expr}
    (h : ∀ e ∈ es, ∀ {c d : Classes}, c.Valid → (c.visit stored stmt e).1.Extends d →
      (c.visit stored stmt e).1.tally i
        = c.tally i + e.subterms.countP (d.isOccurrence i stored))
    {c d : Classes} (hc : c.Valid) (hd : (c.visitAll stored stmt es).1.Extends d) :
    (c.visitAll stored stmt es).1.tally i
      = c.tally i + (es.flatMap Expr.subterms).countP (d.isOccurrence i stored) := by
  induction es generalizing c with
  | nil =>
    rw [visitAll]
    rfl
  | cons e es ih =>
    have he := visit_numbers stored stmt e hc
    have hes := numbersAll_visitAll stored stmt es he.valid
    rw [visitAll] at hd ⊢
    rw [List.flatMap_cons, List.countP_append, ← Nat.add_assoc,
      ← h e (List.mem_cons_self ..) hc (hes.grows.trans hd)]
    exact ih (fun x hx => h x (List.mem_cons_of_mem _ hx)) he.valid hd

/-- Numbering an expression counts its subterms, each for its class. -/
theorem tally_visit (stored : List Nat) (stmt i : Nat) (e : Expr) {c d : Classes} (hc : c.Valid)
    (hd : (c.visit stored stmt e).1.Extends d) :
    (c.visit stored stmt e).1.tally i
      = c.tally i + e.subterms.countP (d.isOccurrence i stored) := by
  induction e using Expr.induction generalizing c d with
  | node op shape args ih =>
    have hargs := numbersAll_visitAll stored stmt args hc
    have hnumber := hd.find? (visit_numbers stored stmt (.node op shape args) hc).number
    rw [visit] at hd hnumber ⊢
    dsimp only at hd hnumber ⊢
    have hall := tally_visitAll ih hc ((record_spec hargs.valid _ stmt _).2.1.trans hd)
    rw [tally_record hargs.valid, hall, Expr.subterms_node, List.countP_cons, isOccurrence,
      hnumber]
    simp only [beq_iff_eq, Option.some.injEq, Nat.add_assoc]

theorem tally_visitStores (result : Expr) (ss : List Assign) (stored : List Nat) (stmt i : Nat)
    {c d : Classes} (hc : c.Valid) (hd : (c.visitStores stored stmt result ss).Extends d) :
    (c.visitStores stored stmt result ss).tally i
      = c.tally i + (Block.occurrencesFrom result stored ss).countP
          (fun o => d.isOccurrence i o.stored o.expr) := by
  induction ss generalizing stored stmt c with
  | nil =>
    rw [visitStores] at hd ⊢
    rw [Block.occurrencesFrom, List.countP_map]
    exact tally_visit stored stmt i result hc hd
  | cons s ss ih =>
    have hs := visit_numbers stored stmt s.value hc
    have hss := visitStores_numbers result ss (s.target :: stored) (stmt + 1) hs.valid
    rw [visitStores] at hd ⊢
    rw [Block.occurrencesFrom, List.countP_append, List.countP_map, ← Nat.add_assoc,
      ih (s.target :: stored) (stmt + 1) hs.valid hd,
      tally_visit stored stmt i s.value hc (hss.grows.trans hd)]
    rfl

/-- A class of a block counts its occurrences. -/
theorem count_eq {b : Block} {i : Nat} {s : ShareClass} (h : (ofBlock b).table[i]? = some s) :
    s.count = b.occurrences.countP (fun o => (ofBlock b).isOccurrence i o.stored o.expr) := by
  have htally := tally_visitStores b.result b.stores [] 0 i valid_empty (.refl (ofBlock b))
  have hempty : empty.tally i = 0 := rfl
  rw [hempty, Nat.zero_add] at htally
  rw [Block.occurrences, ← htally]
  show _ = (ofBlock b).tally i
  rw [tally, h]
  rfl

/-- A class of a block was met first at one of its occurrences. -/
theorem exists_first {b : Block} {i : Nat} {s : ShareClass}
    (h : (ofBlock b).table[i]? = some s) :
    ∃ o ∈ b.occurrences, o.expr = s.first ∧ (ofBlock b).find? o.stored o.expr = some i := by
  obtain ⟨e, he, hmem, hfind, -⟩ := ofBlock_first h
  exact ⟨⟨history [] b.stores s.stmt, s.first⟩,
    Block.mem_occurrencesFrom.2 ⟨s.stmt, e, he, hmem, rfl⟩, rfl, hfind⟩

/-- Every occurrence in a block belongs to a class, whose first occurrence is the same tree. -/
theorem exists_class {b : Block} {o : Occurrence} (ho : o ∈ b.occurrences) :
    ∃ i s, (ofBlock b).table[i]? = some s ∧ s.first = o.expr
      ∧ (ofBlock b).find? o.stored o.expr = some i := by
  have hnum := ofBlock_numbers b
  obtain ⟨j, e, he, hx, hstored⟩ := Block.mem_occurrencesFrom.1 ho
  obtain ⟨i, hi⟩ := hnum.covers he o.expr hx
  rw [← hstored] at hi
  have hget := Array.getElem?_eq_getElem (find?_lt hnum.valid hi)
  exact ⟨i, _, hget, (eq_first_of_find? hget hi).symm, hi⟩

/-! ## No candidate -/

/-- A walk that keeps a class as soon as one passes a test, and from then on always has one: if it
has none at the end, then no class has passed. -/
theorem foldl_eq_none {test : ShareClass → Bool}
    {f : Nat × Option (Nat × ShareClass) → ShareClass → Nat × Option (Nat × ShareClass)}
    (hkeeps : ∀ best s, (f best s).2 = none → best.2 = none)
    (htakes : ∀ best s, best.2 = none → (f best s).2 = none → test s = false)
    {ss : List ShareClass} {best : Nat × Option (Nat × ShareClass)}
    (h : (ss.foldl f best).2 = none) : best.2 = none ∧ ∀ s ∈ ss, test s = false := by
  induction ss generalizing best with
  | nil => exact ⟨h, by simp⟩
  | cons s ss ih =>
    obtain ⟨hnone, hss⟩ := ih h
    have hbest := hkeeps best s hnone
    exact ⟨hbest, List.forall_mem_cons.2 ⟨htakes best s hbest hnone, hss⟩⟩

theorem candidate?_eq_none {c : Classes} {minWeight : Nat} :
    c.candidate? minWeight = none ↔ ∀ s ∈ c.table, isCandidate minWeight s = false := by
  constructor
  · intro h s hs
    rw [candidate?, ← Array.foldl_toList] at h
    refine (foldl_eq_none ?_ ?_ h).2 s (Array.mem_def.1 hs)
    · intro best s hnone
      obtain ⟨-, hnew⟩ | ⟨-, hkept⟩ := ite_eq_iff.1 hnone
      · cases hnew
      · exact hkept
    · intro best s hbest hnone
      by_contra hcand
      simp [hbest, hcand] at hnone
  · intro h
    by_contra hne
    obtain ⟨⟨target, s⟩, hs⟩ := Option.ne_none_iff_exists'.1 hne
    obtain ⟨hget, hcand⟩ := candidate?_spec hs
    rw [h s (Array.mem_of_getElem? hget)] at hcand
    cases hcand

/-- **There is a candidate exactly if something worth a local occurs twice.** -/
theorem candidate?_eq_none_iff {b : Block} {minWeight : Nat} :
    (ofBlock b).candidate? minWeight = none ↔ b.Unrepeated minWeight := by
  have hvalid := (ofBlock_numbers b).valid
  rw [candidate?_eq_none]
  constructor
  · intro h o ho hnontrivial hweight
    obtain ⟨i, s, hget, hfirst, hi⟩ := exists_class ho
    have hcand := h s (Array.mem_of_getElem? hget)
    simp only [isCandidate, hfirst, hnontrivial, hweight, Bool.not_false, Bool.and_true,
      decide_true, decide_eq_false_iff_not, Nat.not_le, count_eq hget,
      isOccurrence_eq hvalid hi] at hcand
    exact Nat.le_of_lt_succ hcand
  · intro h s hs
    obtain ⟨i, hget⟩ := Array.getElem?_of_mem hs
    obtain ⟨o, ho, hfirst, hi⟩ := exists_first hget
    by_contra hcand
    simp only [isCandidate, Bool.not_eq_false, Bool.and_eq_true, decide_eq_true_iff,
      Bool.not_eq_true'] at hcand
    obtain ⟨⟨htwice, hnontrivial⟩, hweight⟩ := hcand
    have honce := h o ho (hfirst ▸ hnontrivial) (hfirst ▸ hweight)
    simp only [count_eq hget, isOccurrence_eq hvalid hi] at htwice
    omega

end Classes

/-! ## Rounds come to an end -/

namespace Measure

variable (M : Measure)

/-- Reading a local in place of an expression takes away every copy and puts a read there, in all
statements together. -/
theorem readStores {occurs : List Nat → Expr → Bool} {x : Expr}
    (h : ∀ stored y, occurs stored y = true → y = x) (hx : x.op.isTrivial = false) (fresh : Nat)
    (result : Expr) (stored : List Nat) (ss : List Assign) :
    ((Block.readStores occurs fresh stored ss).map fun s => M.expr s.value).sum
        + M.expr (result.readInstead (occurs (Block.targets ss ++ stored)) fresh)
        + (Block.occurrencesFrom result stored ss).countP (fun o => occurs o.stored o.expr)
          * M.expr x
      = (ss.map fun s => M.expr s.value).sum + M.expr result
        + (Block.occurrencesFrom result stored ss).countP (fun o => occurs o.stored o.expr)
          * M.read x.shape := by
  induction ss generalizing stored with
  | nil =>
    have hresult := M.expr_readInstead (h stored) hx fresh result
    rw [Block.occurrencesFrom, List.countP_map]
    simpa [Block.readStores, Block.targets, Function.comp_def] using hresult
  | cons s ss ih =>
    have hs : _ + s.value.subterms.countP (fun y => occurs stored y) * _
        = _ + s.value.subterms.countP (fun y => occurs stored y) * _ :=
      M.expr_readInstead (h stored) hx fresh s.value
    have hss := ih (s.target :: stored)
    rw [Block.occurrencesFrom, List.countP_append, List.countP_map, Block.readStores,
      Block.targets_cons, List.append_assoc, List.singleton_append]
    simp only [List.map_cons, List.sum_cons, Function.comp_def, Nat.add_mul]
    omega

/-- What a round does to a measure: the copies go, a read comes for each, and one store of the
expression comes. -/
theorem block_hoist {b : Block} {minWeight target : Nat} {s : ShareClass}
    (h : (Classes.ofBlock b).candidate? minWeight = some (target, s)) :
    M.block (b.hoist (Classes.ofBlock b) target s) + s.count * M.expr s.first
      = M.block b + M.expr s.first + s.count * M.read s.first.shape := by
  obtain ⟨hget, hcand⟩ := Classes.candidate?_spec h
  simp only [Classes.isCandidate, Bool.and_eq_true, Bool.not_eq_true'] at hcand
  -- only copies of the shared expression have its number
  have hocc : ∀ stored y, (Classes.ofBlock b).isOccurrence target stored y = true →
      y = s.first := by
    intro stored y hy
    rw [Classes.isOccurrence, beq_iff_eq] at hy
    exact Classes.eq_first_of_find? hget hy
  have hreads := M.readStores hocc hcand.1.2 b.locals.length b.result [] b.stores
  have hsplit := List.sum_take_add_sum_drop
    ((Block.readStores ((Classes.ofBlock b).isOccurrence target) b.locals.length [] b.stores).map
      fun s => M.expr s.value) s.stmt
  rw [List.append_nil, Block.targets] at hreads
  rw [block_eq, block_eq, Block.hoist, Classes.count_eq hget, Block.occurrences,
    Block.replaceStores_eq, Classes.replace_fst]
  simp only [List.map_append, List.map_cons, List.sum_append, List.sum_cons, List.map_take,
    List.map_drop]
  omega

end Measure

namespace Block

theorem operations_eq (b : Block) :
    b.operations = (b.stores.map fun s => s.value.operations).sum + b.result.operations :=
  Measure.operations.block_eq b

/-- **A round takes operations away.** -/
theorem operations_hoist_lt {b : Block} {minWeight target : Nat} {s : ShareClass}
    (h : (Classes.ofBlock b).candidate? minWeight = some (target, s)) :
    (b.hoist (Classes.ofBlock b) target s).operations < b.operations := by
  obtain ⟨-, hcand⟩ := Classes.candidate?_spec h
  simp only [Classes.isCandidate, Bool.and_eq_true, decide_eq_true_iff, Bool.not_eq_true'] at hcand
  obtain ⟨⟨htwice, hnontrivial⟩, -⟩ := hcand
  have hpos := Expr.operations_pos hnontrivial
  have heq : _ + s.count * s.first.operations = b.operations + s.first.operations + s.count * 0 :=
    Measure.operations.block_hoist h
  have hle := Nat.mul_le_mul_right s.first.operations htwice
  rw [← Measure.operations_block]
  omega

/-- **Sharing is complete.** After as many rounds as there are operations nothing is repeated. -/
theorem hoistAll_unrepeated {minWeight rounds : Nat} {b : Block} (h : b.operations ≤ rounds) :
    (hoistAll minWeight rounds b).Unrepeated minWeight := by
  induction rounds generalizing b with
  | zero =>
    rw [hoistAll, ← Classes.candidate?_eq_none_iff]
    by_contra hne
    obtain ⟨p, hp⟩ := Option.ne_none_iff_exists'.1 hne
    have := operations_hoist_lt hp
    omega
  | succ rounds ih =>
    rw [hoistAll]
    split
    · next hnone => exact Classes.candidate?_eq_none_iff.1 hnone
    · next target s hcand =>
      have := operations_hoist_lt hcand
      exact ih (by omega)

/-- No round changes a block in which nothing is repeated. -/
theorem hoistAll_eq_self {minWeight : Nat} {b : Block} (h : b.Unrepeated minWeight)
    (rounds : Nat) : hoistAll minWeight rounds b = b := by
  cases rounds with
  | zero => rfl
  | succ rounds => rw [hoistAll, Classes.candidate?_eq_none_iff.2 h]

end Block

end Arithmetization
