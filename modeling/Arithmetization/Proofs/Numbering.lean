import Arithmetization.Proofs.Addresses
import Arithmetization.Proofs.NormalForm
import Mathlib.Data.Set.Card

/-!
Numbers are exact, and replacing finds them again.

Sharing walks through a block once and hands a number out at every node, while its table grows. It
walks through the block a second time to replace the occurrences of one class, and then it looks the
numbers up in the finished table. `Block.number?` is the number of the first walk: it follows the
walk to an address and takes the number that is handed out there. Since a number stays when more are
given out, the second walk finds the same one (`Block.number?_eq`).

What follows is told in addresses. Two of them have one number exactly if they have the same
occurrence; a class counts the addresses with its number, and it was met first in the first
statement that has one (`Block.number?_eq_number?_iff`, `Block.count_eq_ncard`,
`Block.exists_first_address`). Hoisting a class puts a read at each of these addresses and one store
before that first statement, and every node that is at no such address and not below one stays
(`Block.hoisted`).
-/

set_option autoImplicit false

namespace Arithmetization

namespace Classes

/-! ## Numbers on the way -/

/-- The number that is handed out at the end of a path while an expression is numbered. By then the
operands to the left of the path have their numbers. -/
def handed (stored : List Nat) (stmt : Nat) : Classes → Expr → List Nat → Option Nat
  | c, e, [] => some (c.visit stored stmt e).2
  | c, .node _ _ args, i :: path =>
    args[i]?.bind fun a => handed stored stmt (c.visitAll stored stmt (args.take i)).1 a path

/-- The number that is handed out in one of the statements from `stmt` on. -/
def handedIn (result : Expr) :
    List Nat → Nat → Classes → List Assign → Nat → List Nat → Option Nat
  | stored, stmt, c, [], 0, path => c.handed stored stmt result path
  | _, _, _, [], _ + 1, _ => none
  | stored, stmt, c, s :: _, 0, path => c.handed stored stmt s.value path
  | stored, stmt, c, s :: rest, j + 1, path =>
    handedIn result (s.target :: stored) (stmt + 1) (c.visit stored stmt s.value).1 rest j path

theorem visitAll_append_fst (stored : List Nat) (stmt : Nat) (c : Classes) (xs ys : List Expr) :
    (c.visitAll stored stmt (xs ++ ys)).1
      = ((c.visitAll stored stmt xs).1.visitAll stored stmt ys).1 := by
  induction xs generalizing c with
  | nil => rw [List.nil_append, visitAll]
  | cons x xs ih => rw [List.cons_append, visitAll, visitAll, ih]

/-- The table after one operand is part of the table after the whole node. -/
theorem visit_operand_extends {c : Classes} (hc : c.Valid) (stored : List Nat) (stmt : Nat)
    (op : Op) (shape : Shape) {args : List Expr} {i : Nat} {a : Expr} (ha : args[i]? = some a) :
    ((c.visitAll stored stmt (args.take i)).1.visit stored stmt a).1.Extends
      (c.visit stored stmt (.node op shape args)).1 := by
  have hsplit : args = args.take i ++ a :: args.drop (i + 1) := by
    obtain ⟨hi, rfl⟩ := List.getElem?_eq_some_iff.1 ha
    rw [List.getElem_cons_drop, List.take_append_drop]
  have hbefore := numbersAll_visitAll stored stmt (args.take i) hc
  have hhere := visit_numbers stored stmt a hbefore.valid
  have hafter := numbersAll_visitAll stored stmt (args.drop (i + 1)) hhere.valid
  have hall : (c.visitAll stored stmt args).1
      = (((c.visitAll stored stmt (args.take i)).1.visit stored stmt a).1.visitAll stored stmt
          (args.drop (i + 1))).1 := by
    conv_lhs => rw [hsplit, visitAll_append_fst, visitAll]
  -- recording the node itself adds to the table of all operands
  rw [visit]
  refine Extends.trans ?_ (record_spec (numbersAll_visitAll stored stmt args hc).valid _ stmt _).2.1
  rw [hall]
  exact hafter.grows

/-- A number that was handed out is found in every later table. -/
theorem handed_eq {stored : List Nat} {stmt : Nat} {c d : Classes} {e : Expr} (hc : c.Valid)
    (hd : (c.visit stored stmt e).1.Extends d) (path : List Nat) :
    c.handed stored stmt e path = (e.sub? path).bind (d.find? stored) := by
  induction path generalizing c e with
  | nil =>
    rw [Expr.sub?_nil, Option.bind_some, handed]
    exact (hd.find? (visit_numbers stored stmt e hc).number).symm
  | cons i path ih =>
    -- the operand is numbered after those to its left, so the induction is for every valid table
    obtain ⟨op, shape, args⟩ := e
    rw [Expr.sub?_cons, handed]
    cases ha : args[i]? with
    | none => rfl
    | some a =>
      have hoperand := visit_operand_extends hc stored stmt op shape ha
      rw [Option.bind_some, Option.bind_some]
      exact ih (numbersAll_visitAll stored stmt (args.take i) hc).valid (hoperand.trans hd)

theorem handedIn_eq {result : Expr} {stored : List Nat} {stmt : Nat} {c d : Classes}
    {ss : List Assign} (hc : c.Valid) (hd : (c.visitStores stored stmt result ss).Extends d)
    (j : Nat) (path : List Nat) :
    handedIn result stored stmt c ss j path
      = ((ss.map Assign.value ++ [result])[j]?.bind fun e => e.sub? path).bind
          (d.find? (history stored ss j)) := by
  induction ss generalizing stored stmt c j with
  | nil =>
    cases j with
    | zero =>
      rw [handedIn]
      exact handed_eq hc hd path
    | succ j => rw [handedIn]; rfl
  | cons s ss ih =>
    rw [visitStores] at hd
    have hs := visit_numbers stored stmt s.value hc
    cases j with
    | zero =>
      have hss := visitStores_numbers result ss (s.target :: stored) (stmt + 1) hs.valid
      rw [handedIn]
      exact handed_eq hc (hss.grows.trans hd) path
    | succ j =>
      rw [handedIn, history_cons_succ]
      exact ih hs.valid hd j

end Classes

namespace Block

/-- The number that is handed out at an address when the block is numbered. -/
def number? (b : Block) (q : Address) : Option Nat :=
  Classes.handedIn b.result [] 0 .empty b.stores q.stmt q.path

/-- How often a local is stored before a statement. -/
def storesBefore (b : Block) (j l : Nat) : Nat :=
  ((b.stores.take j).map Assign.target).count l

variable {b : Block}

theorem count_history (b : Block) (j l : Nat) :
    (Classes.history [] b.stores j).count l = b.storesBefore j l := by
  rw [Classes.history, List.append_nil, List.count_reverse, storesBefore]

/-- **The number at an address is the one found afterwards.** -/
theorem number?_eq (b : Block) (q : Address) :
    b.number? q
      = (b.sub? q).bind ((Classes.ofBlock b).find? (Classes.history [] b.stores q.stmt)) :=
  Classes.handedIn_eq Classes.valid_empty (.refl (Classes.ofBlock b)) q.stmt q.path

theorem number?_of_sub? {q : Address} {x : Expr} (h : b.sub? q = some x) :
    b.number? q = (Classes.ofBlock b).find? (Classes.history [] b.stores q.stmt) x := by
  rw [number?_eq, h, Option.bind_some]

theorem number?_eq_some {q : Address} {i : Nat} :
    b.number? q = some i ↔ ∃ x, b.sub? q = some x
      ∧ (Classes.ofBlock b).find? (Classes.history [] b.stores q.stmt) x = some i := by
  rw [number?_eq, Option.bind_eq_some_iff]

theorem isOccurrence_of_sub? {q : Address} {x : Expr} (h : b.sub? q = some x) (i : Nat) :
    (Classes.ofBlock b).isOccurrence i (Classes.history [] b.stores q.stmt) x
      = decide (b.number? q = some i) := by
  rw [number?_of_sub? h, Bool.eq_iff_iff, decide_eq_true_iff]
  exact beq_iff_eq

/-- Every address has a number, and nothing else has one. -/
theorem isSome_number? (b : Block) (q : Address) :
    (b.number? q).isSome = (b.sub? q).isSome := by
  cases hx : b.sub? q with
  | none => rw [number?_eq, hx, Option.bind_none]; rfl
  | some x =>
    obtain ⟨e, he, hpath⟩ := sub?_eq_some.1 hx
    obtain ⟨i, hi⟩ := (Classes.ofBlock_numbers b).covers he x (Expr.mem_subterms_of_sub? hpath)
    rw [number?_of_sub? hx, hi]
    rfl

/-- **Numbers tell addresses apart** by the tree and by the stores to the locals in it. -/
theorem number?_eq_number?_iff {q q' : Address} {x x' : Expr} (hx : b.sub? q = some x)
    (hx' : b.sub? q' = some x') :
    b.number? q = b.number? q' ↔
      x = x' ∧ ∀ l ∈ x.reads, b.storesBefore q.stmt l = b.storesBefore q'.stmt l := by
  have hsome : (b.number? q').isSome := by rw [isSome_number?, hx']; rfl
  obtain ⟨i, hi⟩ := Option.isSome_iff_exists.1 hsome
  simp only [← count_history]
  constructor
  · intro heq
    rw [hi] at heq
    rw [number?_of_sub? hx] at heq
    rw [number?_of_sub? hx'] at hi
    exact Classes.find?_inj (Classes.ofBlock_numbers b).valid heq hi
  · rintro ⟨rfl, hcount⟩
    rw [number?_of_sub? hx, number?_of_sub? hx', Classes.find?_congr _ hcount]

/-! ## What a class knows -/

variable {i : Nat} {s : ShareClass}

/-- **A class counts the addresses that have its number.** -/
theorem count_eq_ncard (h : (Classes.ofBlock b).table[i]? = some s) :
    s.count = {q | b.number? q = some i}.ncard := by
  have hnumber : ∀ q, (b.occurrence? q).any
      (fun o => (Classes.ofBlock b).isOccurrence i o.stored o.expr)
        = decide (b.number? q = some i) := by
    intro q
    cases hx : b.sub? q with
    | none =>
      rw [number?_eq, occurrence?, hx]
      rfl
    | some x =>
      rw [occurrence?, hx, ← isOccurrence_of_sub? hx i]
      rfl
  -- the set is a list of addresses without repetitions, so counting it is counting the list
  have hset : {q | b.number? q = some i}
      = ((b.addresses.filter fun q => b.number? q = some i).toFinset : Set Address) := by
    ext q
    simp only [Set.mem_ofPred_eq, List.coe_toFinset, List.mem_filter, mem_addresses,
      decide_eq_true_iff]
    refine ⟨fun hq => ⟨?_, hq⟩, And.right⟩
    rw [← isSome_number?, hq]
    rfl
  rw [Classes.count_eq h, countP_occurrences, hset, Set.ncard_coe_finset,
    List.toFinset_card_of_nodup (b.nodup_addresses.filter _), ← List.countP_eq_length_filter]
  simp only [hnumber]

/-- **A class was met first in the first statement that has its number.** -/
theorem exists_first_address (h : (Classes.ofBlock b).table[i]? = some s) :
    (∃ q, b.number? q = some i ∧ q.stmt = s.stmt ∧ b.sub? q = some s.first)
      ∧ ∀ q, b.number? q = some i → s.stmt ≤ q.stmt := by
  obtain ⟨e, he, hmem, hfind, hbefore⟩ := Classes.ofBlock_first h
  constructor
  · obtain ⟨path, hpath⟩ := Expr.exists_sub?_of_mem_subterms hmem
    have hsub : b.sub? ⟨s.stmt, path⟩ = some s.first := sub?_eq_some.2 ⟨e, he, hpath⟩
    exact ⟨⟨s.stmt, path⟩, number?_eq_some.2 ⟨s.first, hsub, hfind⟩, rfl, hsub⟩
  · -- a number is new in the first statement that has it
    intro q hq
    by_contra hlt
    obtain ⟨x, hx, hi⟩ := number?_eq_some.1 hq
    obtain ⟨e', he', hpath⟩ := sub?_eq_some.1 hx
    exact hbefore (Nat.not_le.1 hlt) he' x (Expr.mem_subterms_of_sub? hpath) hi

/-- Occurrences of one class are never inside each other. -/
theorem number?_ne_of_above {q : Address} {above : List Nat} (hq : b.number? q = some i)
    (habove : above <+: q.path) (hne : above ≠ q.path) : b.number? ⟨q.stmt, above⟩ ≠ some i := by
  intro hnumber
  obtain ⟨x, hx, -⟩ := number?_eq_some.1 hq
  obtain ⟨y, hy, -⟩ := number?_eq_some.1 hnumber
  -- both have the same tree, and no tree is below itself
  have heq : y = x := ((number?_eq_number?_iff hy hx).1 (hnumber.trans hq.symm)).1
  obtain ⟨e, he, hex⟩ := sub?_eq_some.1 hx
  obtain ⟨e', he', hey⟩ := sub?_eq_some.1 hy
  obtain rfl := Option.some.inj (he.symm.trans he')
  obtain ⟨rest, hrest⟩ := habove
  rw [← hrest, Expr.sub?_append, hey, Option.bind_some] at hex
  cases rest with
  | nil => exact hne (by simpa using hrest)
  | cons j rest => exact Expr.ne_of_sub?_cons hex heq

end Block

/-! ## What hoisting does -/

/-- A node without what is below it. -/
def Expr.label (e : Expr) : Op × Shape × Nat :=
  (e.op, e.shape, e.args.length)

/-- Where statement `j` stands after one more statement has been put before statement `n`. -/
def Address.moved (n j : Nat) : Nat :=
  if j < n then j else j + 1

/-- What hoisting class `i` of a block has to make of the block. -/
structure Block.Hoisted (b : Block) (i : Nat) (s : ShareClass) (b' : Block) : Prop where
  /-- One more local, of the shape of the class. -/
  locals : b'.locals = b.locals ++ [s.first.shape]
  /-- It is stored right before the statement where the class was met first, -/
  store : b'.stores[s.stmt]? = some ⟨b.locals.length, s.first⟩
  /-- and the stores of before go where they went. -/
  targets : ∀ j, b'.stores[Address.moved s.stmt j]?.map Assign.target
    = b.stores[j]?.map Assign.target
  /-- The new local is read at every address of the class, -/
  replaced : ∀ q, b.number? q = some i →
    b'.sub? ⟨Address.moved s.stmt q.stmt, q.path⟩
      = some (.node (.load .local b.locals.length) s.first.shape [])
  /-- every node that is at no such address and not below one stays, -/
  kept : ∀ q, (∀ above, above <+: q.path → b.number? ⟨q.stmt, above⟩ ≠ some i) →
    (b'.sub? ⟨Address.moved s.stmt q.stmt, q.path⟩).map Expr.label = (b.sub? q).map Expr.label
  /-- and the new local is read as often as the class has addresses. -/
  reads : b'.reads.count b.locals.length = s.count

/-- A local that was not read is read once for each subterm that is picked out. -/
theorem Expr.count_reads_readInstead {p : Expr → Bool} {x : Expr} (hp : ∀ y, p y = true → y = x)
    {fresh : Nat} {e : Expr} (h : fresh ∉ e.reads) :
    (e.readInstead p fresh).reads.count fresh = e.subterms.countP p := by
  induction e using Expr.induction with
  | node op shape args ih =>
    have hop : fresh ∉ op.local?.toList := fun hl =>
      h (mem_reads_node.2 (.inl (Option.mem_toList.1 hl)))
    have hargs : ∀ a ∈ args, fresh ∉ a.reads := fun a ha hl =>
      h (mem_reads_node.2 (.inr ⟨a, ha, hl⟩))
    rw [readInstead_node, subterms_node, List.countP_cons, List.countP_flatMap]
    by_cases hnode : p (.node op shape args) = true
    · -- nothing is picked out below, so there is one read and one occurrence
      have hnone := countP_subterms_args fun y hy => (hp y hy).trans (hp _ hnode).symm
      rw [if_pos hnode, if_pos hnode, hnone, reads_node]
      simp [Op.local?]
    · rw [if_neg hnode, if_neg hnode, reads_node, List.count_append,
        List.count_eq_zero_of_not_mem hop, List.count_flatMap, List.map_map, Nat.zero_add,
        Nat.add_zero]
      refine congrArg List.sum (List.map_congr_left fun a ha => ?_)
      exact ih a ha (hargs a ha)

theorem Expr.readInstead_of_pick {p : Expr → Bool} {fresh : Nat} {e : Expr} (h : p e = true) :
    e.readInstead p fresh = .node (.load .local fresh) e.shape [] := by
  obtain ⟨op, shape, args⟩ := e
  rw [readInstead_node, if_pos h]
  rfl

theorem Expr.label_readInstead {p : Expr → Bool} {fresh : Nat} {e : Expr} (h : p e = false) :
    (e.readInstead p fresh).label = e.label := by
  obtain ⟨op, shape, args⟩ := e
  rw [readInstead_node, h, if_neg Bool.false_ne_true]
  simp [label, Expr.op, Expr.shape, Expr.args]

/-- A list with one more entry has the other ones where they have moved. -/
theorem getElem?_take_cons_drop {α : Type} {xs : List α} {n : Nat} (hn : n ≤ xs.length) (x : α)
    (j : Nat) : (xs.take n ++ x :: xs.drop n)[Address.moved n j]? = xs[j]? := by
  have hlen : (xs.take n).length = n := by rw [List.length_take, Nat.min_eq_left hn]
  rw [Address.moved]
  split
  · next hlt => rw [List.getElem?_append_left (by omega), List.getElem?_take_of_lt hlt]
  · next hge =>
    rw [List.getElem?_append_right (by omega), hlen, Nat.sub_add_comm (by omega),
      List.getElem?_cons_succ, List.getElem?_drop, Nat.add_sub_cancel' (by omega)]

namespace Block

theorem length_readStores (occurs : List Nat → Expr → Bool) (fresh : Nat) (stored : List Nat)
    (ss : List Assign) : (readStores occurs fresh stored ss).length = ss.length := by
  simpa using congrArg List.length (map_target_readStores occurs fresh stored ss)

/-- The statements of a block with reads in place of occurrences. -/
def readExprs (occurs : List Nat → Expr → Bool) (fresh : Nat) (stored : List Nat)
    (ss : List Assign) (result : Expr) : List Expr :=
  (readStores occurs fresh stored ss).map Assign.value
    ++ [result.readInstead (occurs (targets ss ++ stored)) fresh]

theorem readExprs_cons (occurs : List Nat → Expr → Bool) (fresh : Nat) (stored : List Nat)
    (s : Assign) (ss : List Assign) (result : Expr) :
    readExprs occurs fresh stored (s :: ss) result
      = s.value.readInstead (occurs stored) fresh
        :: readExprs occurs fresh (s.target :: stored) ss result := by
  rw [readExprs, readStores, targets_cons, List.append_assoc]
  rfl

theorem getElem?_readExprs (occurs : List Nat → Expr → Bool) (fresh : Nat) (stored : List Nat)
    (ss : List Assign) (result : Expr) (j : Nat) :
    (readExprs occurs fresh stored ss result)[j]?
      = (ss.map Assign.value ++ [result])[j]?.map
          (Expr.readInstead (occurs (Classes.history stored ss j)) fresh) := by
  induction ss generalizing stored j with
  | nil => cases j <;> rfl
  | cons s ss ih =>
    rw [readExprs_cons]
    cases j with
    | zero => rfl
    | succ j =>
      rw [List.getElem?_cons_succ, ih, Classes.history_cons_succ]
      rfl

/-- The same for all statements: the local is read once for each occurrence. -/
theorem count_reads_readExprs {occurs : List Nat → Expr → Bool} {x : Expr}
    (hx : ∀ stored y, occurs stored y = true → y = x) {fresh : Nat} {result : Expr}
    (stored : List Nat) {ss : List Assign}
    (h : ∀ e ∈ ss.map Assign.value ++ [result], fresh ∉ e.reads) :
    ((readExprs occurs fresh stored ss result).flatMap Expr.reads).count fresh
      = (occurrencesFrom result stored ss).countP fun o => occurs o.stored o.expr := by
  induction ss generalizing stored with
  | nil =>
    have hresult := Expr.count_reads_readInstead (hx stored) (h result (by simp))
    rw [occurrencesFrom, List.countP_map, readExprs]
    simpa [readStores, targets, Function.comp_def] using hresult
  | cons s ss ih =>
    have hs := Expr.count_reads_readInstead (hx stored) (h s.value (by simp))
    rw [readExprs_cons, occurrencesFrom, List.flatMap_cons, List.count_append, hs,
      ih _ fun e he => h e (List.mem_cons_of_mem _ he), List.countP_append, List.countP_map]
    rfl

variable {b : Block} {i : Nat} {s : ShareClass}

/-- The statements after hoisting: those with reads in place of occurrences, and one more. -/
theorem exprs_hoist (c : Classes) (hn : s.stmt ≤ b.stores.length) :
    (b.hoist c i s).exprs
      = (readExprs (c.isOccurrence i) b.locals.length [] b.stores b.result).take s.stmt
        ++ s.first
          :: (readExprs (c.isOccurrence i) b.locals.length [] b.stores b.result).drop s.stmt := by
  have hlen : s.stmt ≤ ((readStores (c.isOccurrence i) b.locals.length [] b.stores).map
      Assign.value).length := by
    rw [List.length_map, length_readStores]
    exact hn
  rw [exprs, hoist, readExprs, replaceStores_eq, Classes.replace_fst,
    List.take_append_of_le_length hlen, List.drop_append_of_le_length hlen, List.append_nil]
  simp [targets]

/-- Where nothing above has the number, hoisting replaces in what stands there. -/
theorem sub?_hoist (h : (Classes.ofBlock b).table[i]? = some s) {q : Address}
    (habove : ∀ above, above <+: q.path → above ≠ q.path → b.number? ⟨q.stmt, above⟩ ≠ some i) :
    (b.hoist (Classes.ofBlock b) i s).sub? ⟨Address.moved s.stmt q.stmt, q.path⟩
      = (b.sub? q).map (Expr.readInstead ((Classes.ofBlock b).isOccurrence i
          (Classes.history [] b.stores q.stmt)) b.locals.length) := by
  have hn := Classes.stmt_le_length h
  have hlen : s.stmt ≤ (readExprs ((Classes.ofBlock b).isOccurrence i) b.locals.length []
      b.stores b.result).length := by
    rw [readExprs, List.length_append, List.length_map, length_readStores]
    omega
  rw [sub?, sub?, exprs_hoist _ hn, getElem?_take_cons_drop hlen, getElem?_readExprs, ← exprs]
  cases he : b.exprs[q.stmt]? with
  | none => rfl
  | some e =>
    rw [Option.map_some, Option.bind_some, Option.bind_some]
    refine Expr.sub?_readInstead fun above hprefix hne x hx => ?_
    have hsub : b.sub? ⟨q.stmt, above⟩ = some x := sub?_eq_some.2 ⟨e, he, hx⟩
    exact (isOccurrence_of_sub? hsub i).trans (decide_eq_false (habove above hprefix hne))

theorem count_reads_hoist (hreads : ∀ l ∈ b.reads, l < b.locals.length)
    (h : (Classes.ofBlock b).table[i]? = some s) :
    (b.hoist (Classes.ofBlock b) i s).reads.count b.locals.length = s.count := by
  have hfresh : ∀ e ∈ b.exprs, b.locals.length ∉ e.reads := by
    intro e he hl
    exact Nat.lt_irrefl _ (hreads _ (mem_reads_of_mem_exprs he hl))
  obtain ⟨e, he, hmem, -⟩ := Classes.ofBlock_first h
  have hfirst : b.locals.length ∉ s.first.reads := by
    intro hl
    exact hfresh e (List.mem_of_getElem? he) (mem_reads_of_mem_subterms hmem hl)
  have hocc : ∀ stored y, (Classes.ofBlock b).isOccurrence i stored y = true → y = s.first := by
    intro stored y hy
    rw [Classes.isOccurrence, beq_iff_eq] at hy
    exact Classes.eq_first_of_find? h hy
  -- the new statement may stand anywhere as far as counting goes, and it has no read of the local
  rw [reads, exprs_hoist _ (Classes.stmt_le_length h), (List.perm_middle.flatMap_right _).count_eq,
    List.take_append_drop, List.flatMap_cons, List.count_append,
    List.count_eq_zero_of_not_mem hfirst, Nat.zero_add, count_reads_readExprs hocc [] hfresh,
    Classes.count_eq h, occurrences]

/-- **Hoisting a class** does to its addresses what it has to, and nothing else. -/
theorem hoisted (hreads : ∀ l ∈ b.reads, l < b.locals.length)
    (h : (Classes.ofBlock b).table[i]? = some s) :
    Hoisted b i s (b.hoist (Classes.ofBlock b) i s) := by
  have hn := Classes.stmt_le_length h
  have htargets := map_target_readStores ((Classes.ofBlock b).isOccurrence i) b.locals.length []
    b.stores
  have hlen := length_readStores ((Classes.ofBlock b).isOccurrence i) b.locals.length [] b.stores
  constructor
  · rfl
  · rw [hoist, replaceStores_eq]
    dsimp only
    rw [List.getElem?_append_right (by rw [List.length_take]; omega), List.length_take, hlen,
      Nat.min_eq_left hn, Nat.sub_self]
    rfl
  · intro j
    rw [hoist, replaceStores_eq]
    dsimp only
    rw [getElem?_take_cons_drop (by omega), ← List.getElem?_map, htargets, List.getElem?_map]
  · intro q hq
    obtain ⟨x, hx, hfind⟩ := number?_eq_some.1 hq
    have hpick := (isOccurrence_of_sub? hx i).trans (decide_eq_true hq)
    rw [sub?_hoist h fun above hprefix hne => number?_ne_of_above hq hprefix hne, hx,
      Option.map_some, Expr.readInstead_of_pick hpick, Classes.eq_first_of_find? h hfind]
  · intro q hq
    rw [sub?_hoist h fun above hprefix _ => hq above hprefix]
    cases hx : b.sub? q with
    | none => rfl
    | some x =>
      have hpick := (isOccurrence_of_sub? hx i).trans
        (decide_eq_false (hq q.path (List.prefix_refl _)))
      rw [Option.map_some, Option.map_some, Option.map_some, Expr.label_readInstead hpick]
  · exact count_reads_hoist hreads h

/-- **Numbers are exact, and replacing finds them again.** Let every local that a block reads be
declared. Numbering hands a number out at every address, each of them has its class, and two
addresses have one number exactly if one tree stands at both and every local in it has been stored
equally often before both. Replacing finds at every address the number that was handed out there,
whatever it replaces. A class counts the addresses with its number, its statement is the first that
has such an address, and hoisting it reads a fresh local at these addresses, keeps every other node
and stores the local right before that statement. -/
theorem numbering_exact {b : Block} (h : ∀ l ∈ b.reads, l < b.locals.length) :
    (∀ q, (b.number? q).isSome = (b.sub? q).isSome)
      ∧ (∀ q i, b.number? q = some i → i < (Classes.ofBlock b).table.size)
      ∧ (∀ q q' x x', b.sub? q = some x → b.sub? q' = some x' →
          (b.number? q = b.number? q' ↔
            x = x' ∧ ∀ l ∈ x.reads, b.storesBefore q.stmt l = b.storesBefore q'.stmt l))
      ∧ (∀ q x target fresh, b.sub? q = some x →
          ((Classes.ofBlock b).replace target fresh (Classes.history [] b.stores q.stmt) x).2
            = b.number? q)
      ∧ ∀ i s, (Classes.ofBlock b).table[i]? = some s →
          s.count = {q | b.number? q = some i}.ncard
          ∧ (∃ q, b.number? q = some i ∧ q.stmt = s.stmt ∧ b.sub? q = some s.first)
          ∧ (∀ q, b.number? q = some i → s.stmt ≤ q.stmt)
          ∧ Hoisted b i s (b.hoist (Classes.ofBlock b) i s) := by
  refine ⟨isSome_number? b, ?_, fun q q' x x' => number?_eq_number?_iff, ?_, ?_⟩
  · intro q i hq
    obtain ⟨x, -, hi⟩ := number?_eq_some.1 hq
    exact Classes.find?_lt (Classes.ofBlock_numbers b).valid hi
  · intro q x target fresh hx
    rw [Classes.replace_snd, number?_of_sub? hx]
  · intro i s hs
    obtain ⟨hfirst, hbefore⟩ := exists_first_address hs
    exact ⟨count_eq_ncard hs, hfirst, hbefore, hoisted h hs⟩

/-- One more than the square of a local. -/
def squareSucc (l : Nat) : Expr :=
  .node (.binary .add) (.vector 1)
    [.node (.binary .mul) (.vector 1)
        [.node (.load .local l) (.vector 1) [], .node (.load .local l) (.vector 1) []],
      .node (.literal (.scalar 1)) .scalar []]

/-- A block that computes one square before and one after its local is stored again. -/
def storedAgain : Block where
  locals := [.vector 1, .vector 1]
  stores :=
    [⟨0, .node (.load .trace 0) (.vector 1) []⟩, ⟨1, squareSucc 0⟩,
      ⟨0, .node (.literal (.vector [5])) (.vector 1) []⟩]
  result := .node (.binary .sub) (.vector 1) [.node (.load .local 1) (.vector 1) [], squareSucc 0]

/-- The two squares are one tree, but they have different numbers. The two reads in the first square
have one number, and hoisting its class puts reads of the third local at both. -/
theorem numbering_exact_storedAgain :
    (∀ l ∈ storedAgain.reads, l < storedAgain.locals.length)
      ∧ storedAgain.sub? ⟨1, []⟩ = some (squareSucc 0)
      ∧ storedAgain.sub? ⟨3, [1]⟩ = some (squareSucc 0)
      ∧ storedAgain.number? ⟨1, []⟩ ≠ storedAgain.number? ⟨3, [1]⟩
      ∧ ∃ i s, (Classes.ofBlock storedAgain).table[i]? = some s
          ∧ storedAgain.number? ⟨1, [0, 0]⟩ = some i ∧ storedAgain.number? ⟨1, [0, 1]⟩ = some i
          ∧ ∀ path ∈ [[0, 0], [0, 1]],
              (storedAgain.hoist (Classes.ofBlock storedAgain) i s).sub?
                  ⟨Address.moved s.stmt 1, path⟩
                = some (.node (.load .local 2) s.first.shape []) := by
  have hreads : ∀ l ∈ storedAgain.reads, l < storedAgain.locals.length := by decide
  obtain ⟨hsome, hclass, hiff, -, hall⟩ := numbering_exact hreads
  have hne : storedAgain.number? ⟨1, []⟩ ≠ storedAgain.number? ⟨3, [1]⟩ := by
    intro heq
    have hcount := ((hiff ⟨1, []⟩ ⟨3, [1]⟩ _ _ rfl rfl).1 heq).2 0 (by decide)
    revert hcount
    decide
  have heq : storedAgain.number? ⟨1, [0, 0]⟩ = storedAgain.number? ⟨1, [0, 1]⟩ :=
    (hiff ⟨1, [0, 0]⟩ ⟨1, [0, 1]⟩ _ _ rfl rfl).2 ⟨rfl, fun _ _ => rfl⟩
  obtain ⟨i, hi⟩ := Option.isSome_iff_exists.1 (hsome ⟨1, [0, 0]⟩)
  have hget := Array.getElem?_eq_getElem (hclass _ i hi)
  have hhoisted := (hall i _ hget).2.2.2
  refine ⟨hreads, rfl, rfl, hne, i, _, hget, hi, heq ▸ hi, ?_⟩
  intro path hpath
  refine hhoisted.replaced ⟨1, path⟩ ?_
  rcases List.mem_pair.1 hpath with rfl | rfl
  · exact hi
  · exact heq ▸ hi

end Block

end Arithmetization
