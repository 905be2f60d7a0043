import Arithmetization.Proofs.Modules
import Arithmetization.Proofs.Repetition

/-!
Sharing what is shared already.

The normal form drops what no statement reads and renumbers the rest, so it never repeats what was
not repeated before (`Block.Unrepeated.normalize`), and a shared block repeats nothing
(`Block.share_unrepeated`). A second run of sharing therefore finds nothing to hoist and does no
more than normalize again (`Block.share_share`).

Normalizing again is not always the identity. A local counts as read even if the only statement that
reads it is a store that is dropped itself. The local then survives the first run and falls in the
second. This is the only thing that can happen: a normal form is a fixed point exactly if each of
its locals is read by one of its own statements (`Block.normalize_normalize_iff`).
-/

set_option autoImplicit false

namespace Arithmetization

namespace Block

/-! ## Renumbered expressions -/

/-- The number that a local had before it was renumbered. -/
def original (kept : List Nat) (source : Source) (i : Nat) : Nat :=
  match source with
  | .local => kept.getD i i
  | _ => i

/-- Renumbering loses nothing where every local is kept. -/
theorem mapLoads_original {kept : List Nat} {e : Expr} (he : ∀ l ∈ e.reads, l ∈ kept) :
    (renumberExpr kept e).mapLoads (original kept) = e := by
  induction e using Expr.induction with
  | node op shape args ih =>
    have hargs : (args.map (renumberExpr kept)).map (Expr.mapLoads (original kept)) = args := by
      rw [List.map_map]
      refine (List.map_congr_left fun a ha => ?_).trans (List.map_id args)
      exact ih a ha fun l hl => he l (Expr.mem_reads_node.2 (.inr ⟨a, ha, hl⟩))
    rw [renumberExpr_node, Expr.mapLoads, Expr.fold_node, ← Expr.mapLoads, hargs]
    cases op with
    | load source i =>
      cases source with
      | «local» =>
        have hi : i ∈ kept := he i (Expr.mem_reads_node.2 (.inl rfl))
        have hlt := List.idxOf_lt_length_of_mem hi
        have hget : original kept .local (renumber kept i) = i := by
          rw [renumber_eq hi, original, List.getD_eq_getElem?_getD,
            List.getElem?_eq_getElem hlt, List.getElem_idxOf, Option.getD_some]
        simp only [renumberOp, hget]
      | _ => rfl
    | _ => rfl

theorem renumberExpr_inj {kept : List Nat} {e e' : Expr} (he : ∀ l ∈ e.reads, l ∈ kept)
    (he' : ∀ l ∈ e'.reads, l ∈ kept) (h : renumberExpr kept e = renumberExpr kept e') : e = e' := by
  rw [← mapLoads_original he, h, mapLoads_original he']

theorem subterms_renumberExpr (kept : List Nat) (e : Expr) :
    (renumberExpr kept e).subterms = e.subterms.map (renumberExpr kept) := by
  induction e using Expr.induction with
  | node op shape args ih =>
    rw [renumberExpr_node, Expr.subterms_node, Expr.subterms_node, List.map_cons,
      renumberExpr_node, List.flatMap_map, List.map_flatMap]
    exact congrArg _ (List.flatMap_congr ih)

theorem mem_reads_renumberExpr {kept : List Nat} {e : Expr} {l : Nat} (hl : l ∈ e.reads) :
    renumber kept l ∈ (renumberExpr kept e).reads := by
  induction e using Expr.induction with
  | node op shape args ih =>
    rw [renumberExpr_node, Expr.mem_reads_node]
    rcases Expr.mem_reads_node.1 hl with hop | ⟨a, ha, hl⟩
    · rw [Op.local?_eq_some.1 hop]
      exact .inl rfl
    · exact .inr ⟨_, List.mem_map_of_mem ha, ih a ha hl⟩

theorem weight_renumberExpr (kept : List Nat) (e : Expr) :
    (renumberExpr kept e).weight = e.weight :=
  Measure.nodes.expr_renumberExpr kept e

theorem isTrivial_renumberExpr (kept : List Nat) (e : Expr) :
    (renumberExpr kept e).op.isTrivial = e.op.isTrivial := by
  obtain ⟨op, shape, args⟩ := e
  rw [renumberExpr_node]
  cases op with
  | load source i => cases source <;> rfl
  | _ => rfl

end Block

/-! ## Nothing is repeated by renumbering -/

/-- An occurrence in the normal form: only stores to kept locals have come before it. -/
def Occurrence.renumber (kept : List Nat) (o : Occurrence) : Occurrence :=
  ⟨(o.stored.filter kept.contains).map (Block.renumber kept), Block.renumberExpr kept o.expr⟩

theorem count_map_renumber {kept : List Nat} {l : Nat} (hl : l ∈ kept) (stored : List Nat) :
    ((stored.filter kept.contains).map (Block.renumber kept)).count (Block.renumber kept l)
      = stored.count l := by
  rw [List.count, List.countP_map, List.countP_filter, List.count]
  refine List.countP_congr fun m _ => ?_
  simp only [Function.comp_apply, Bool.and_eq_true, beq_iff_eq, List.contains_iff_mem]
  constructor
  · rintro ⟨heq, hm⟩
    exact Block.renumber_inj hm hl heq
  · rintro rfl
    exact ⟨rfl, hl⟩

/-- Occurrences that are the same in the normal form were the same before. -/
theorem Occurrence.Same.of_renumber {kept : List Nat} {o o' : Occurrence}
    (ho : ∀ l ∈ o.expr.reads, l ∈ kept) (ho' : ∀ l ∈ o'.expr.reads, l ∈ kept)
    (h : (o.renumber kept).Same (o'.renumber kept)) : o.Same o' := by
  obtain ⟨hexpr, hcount⟩ := h
  refine ⟨Block.renumberExpr_inj ho' ho hexpr, fun l hl => ?_⟩
  have heq := hcount _ (Block.mem_reads_renumberExpr hl)
  rwa [renumber, renumber, count_map_renumber (ho l hl), count_map_renumber (ho l hl)] at heq

namespace Block

/-- The occurrences of the normal form come from those of the statements that stay. -/
theorem occurrencesFrom_renumber (kept : List Nat) (result : Expr) (stored : List Nat)
    (ss : List Assign) :
    ∃ os : List Occurrence, os.Sublist (occurrencesFrom result stored ss)
      ∧ occurrencesFrom (renumberExpr kept result)
          ((stored.filter kept.contains).map (renumber kept))
          ((ss.filter fun s => kept.contains s.target).map fun s =>
            ⟨renumber kept s.target, renumberExpr kept s.value⟩)
        = os.map (Occurrence.renumber kept) := by
  have hstmt : ∀ (stored : List Nat) (e : Expr),
      (renumberExpr kept e).subterms.map
          (Occurrence.mk ((stored.filter kept.contains).map (renumber kept)))
        = (e.subterms.map (Occurrence.mk stored)).map (Occurrence.renumber kept) := by
    intro stored e
    rw [subterms_renumberExpr, List.map_map, List.map_map]
    rfl
  induction ss generalizing stored with
  | nil => exact ⟨_, .refl _, hstmt stored result⟩
  | cons s ss ih =>
    obtain ⟨os, hsub, hos⟩ := ih (s.target :: stored)
    by_cases hs : kept.contains s.target = true
    · have hstays : (s :: ss).filter (fun s => kept.contains s.target)
          = s :: ss.filter fun s => kept.contains s.target := List.filter_cons_of_pos hs
      rw [List.filter_cons_of_pos hs, List.map_cons] at hos
      refine ⟨s.value.subterms.map (Occurrence.mk stored) ++ os,
        (List.Sublist.refl _).append hsub, ?_⟩
      rw [hstays, List.map_cons, occurrencesFrom, hos, List.map_append, hstmt]
    · have hdropped : (s :: ss).filter (fun s => kept.contains s.target)
          = ss.filter fun s => kept.contains s.target := List.filter_cons_of_neg hs
      rw [List.filter_cons_of_neg hs] at hos
      exact ⟨os, hsub.trans (List.sublist_append_right _ _), by rw [hdropped, hos]⟩

/-- Every local that is read is stored by some statement. -/
def ReadsStored (b : Block) : Prop :=
  ∀ l ∈ b.reads, l ∈ b.stores.map Assign.target

theorem ReadsStored.mem_kept {b : Block} (h : b.ReadsStored) {l : Nat} (hl : l ∈ b.reads) :
    l ∈ b.kept :=
  Block.mem_kept.2 ⟨h l hl, hl⟩

theorem mem_reads_of_mem_subterms {x e : Expr} (hx : x ∈ e.subterms) {l : Nat} (hl : l ∈ x.reads) :
    l ∈ e.reads := by
  induction e using Expr.induction with
  | node op shape args ih =>
    rcases Expr.mem_subterms_node.1 hx with rfl | ⟨a, ha, hx⟩
    · exact hl
    · exact Expr.mem_reads_node.2 (.inr ⟨a, ha, ih a ha hx⟩)

theorem mem_reads_of_mem_occurrences {b : Block} {o : Occurrence} (ho : o ∈ b.occurrences)
    {l : Nat} (hl : l ∈ o.expr.reads) : l ∈ b.reads := by
  obtain ⟨j, e, he, hx, -⟩ := mem_occurrencesFrom.1 ho
  exact mem_reads_of_mem_exprs (List.mem_of_getElem? he) (mem_reads_of_mem_subterms hx hl)

/-- **The normal form repeats nothing** that was not repeated before. -/
theorem Unrepeated.normalize {minWeight : Nat} {b : Block} (h : b.Unrepeated minWeight)
    (hreads : b.ReadsStored) : b.normalize.Unrepeated minWeight := by
  obtain ⟨os, hsub, hos⟩ := occurrencesFrom_renumber b.kept b.result [] b.stores
  have hoccurrences : b.normalize.occurrences = os.map (Occurrence.renumber b.kept) := hos
  have hkept : ∀ o ∈ b.occurrences, ∀ l ∈ o.expr.reads, l ∈ b.kept := fun o ho l hl =>
    hreads.mem_kept (mem_reads_of_mem_occurrences ho hl)
  unfold Unrepeated
  rw [hoccurrences]
  intro o' ho' hnontrivial hweight
  obtain ⟨o, ho, rfl⟩ := List.mem_map.1 ho'
  have hmem := hsub.subset ho
  have honce := h o hmem (by rwa [← isTrivial_renumberExpr b.kept])
    (by rwa [← weight_renumberExpr b.kept])
  calc (os.map (Occurrence.renumber b.kept)).countP ((o.renumber b.kept).Same ·)
      = os.countP fun x => (o.renumber b.kept).Same (x.renumber b.kept) := by
        rw [List.countP_map]
        rfl
    _ ≤ b.occurrences.countP fun x => (o.renumber b.kept).Same (x.renumber b.kept) :=
        hsub.countP_le
    _ ≤ b.occurrences.countP (o.Same ·) := by
        refine List.countP_mono_left fun x hx hsame => ?_
        rw [decide_eq_true_iff] at hsame ⊢
        exact hsame.of_renumber (hkept o hmem) (hkept x hx)
    _ ≤ 1 := honce

/-! ## Locals that are read -/

theorem mem_reads_readInstead {p : Expr → Bool} {fresh : Nat} {e : Expr} {l : Nat}
    (hl : l ∈ (e.readInstead p fresh).reads) : l = fresh ∨ l ∈ e.reads := by
  induction e using Expr.induction with
  | node op shape args ih =>
    rw [Expr.readInstead_node] at hl
    split at hl
    · rcases Expr.mem_reads_node.1 hl with hop | ⟨a, ha, -⟩
      · exact .inl (Option.some.inj hop).symm
      · cases ha
    · rcases Expr.mem_reads_node.1 hl with hop | ⟨a, ha, hl⟩
      · exact .inr (Expr.mem_reads_node.2 (.inl hop))
      · obtain ⟨x, hx, rfl⟩ := List.mem_map.1 ha
        exact (ih x hx hl).imp_right fun hl => Expr.mem_reads_node.2 (.inr ⟨x, hx, hl⟩)

theorem map_target_readStores (occurs : List Nat → Expr → Bool) (fresh : Nat) (stored : List Nat)
    (ss : List Assign) :
    (readStores occurs fresh stored ss).map Assign.target = ss.map Assign.target := by
  induction ss generalizing stored with
  | nil => rfl
  | cons s ss ih => rw [readStores, List.map_cons, List.map_cons, ih]

/-- A round reads one more local. -/
theorem Hoisting.mem_reads {b : Block} (step : Hoisting b) {l : Nat} (hl : l ∈ step.block.reads) :
    l = b.locals.length ∨ l ∈ b.reads := by
  obtain ⟨e, he, hl⟩ := List.mem_flatMap.1 hl
  obtain he | rfl | ⟨e', he', p, rfl⟩ := step.mem_exprs he
  · exact .inr (mem_reads_of_mem_exprs he hl)
  · obtain ⟨e, he, hmem⟩ := step.exists_mem_exprs
    exact .inr (mem_reads_of_mem_exprs he (mem_reads_of_mem_subterms hmem hl))
  · exact (mem_reads_readInstead hl).imp_right (mem_reads_of_mem_exprs he')

/-- The local that a round reads is one that it stores. -/
theorem ReadsStored.hoisting {b : Block} (h : b.ReadsStored) (step : Hoisting b) :
    step.block.ReadsStored := by
  have htargets : step.block.stores.map Assign.target
      = step.before.map Assign.target ++ b.locals.length :: step.after.map Assign.target := by
    rw [Hoisting.block, List.map_append, List.map_cons, map_target_readStores]
  intro l hl
  rw [htargets, List.mem_append, List.mem_cons]
  rcases step.mem_reads hl with rfl | hl
  · exact .inr (.inl rfl)
  · have hmem := h l hl
    rw [step.stores_eq, List.map_append, List.mem_append] at hmem
    exact hmem.imp_right .inr

/-- **A shared block repeats nothing** that is worth a local. -/
theorem share_unrepeated {b : Block} (h : b.ReadsStored) (minWeight : Nat) :
    (b.share minWeight).Unrepeated (max minWeight 2) := by
  have hreads : (hoistAll (max minWeight 2) b.operations b).ReadsStored :=
    hoistAll_induction (fun step h => h.hoisting step) h
  exact (hoistAll_unrepeated (Nat.le_refl b.operations)).normalize hreads

/-- **A second run hoists nothing.** -/
theorem share_share {b : Block} (h : b.ReadsStored) (minWeight : Nat) :
    (b.share minWeight).share minWeight = (b.share minWeight).normalize := by
  conv_lhs => rw [share, hoistAll_eq_self (share_unrepeated h minWeight)]

/-! ## Fixed points of the normal form -/

/-- One step of the scan for kept locals. -/
def keep (reads kept : List Nat) (l : Nat) : List Nat :=
  if reads.contains l && !kept.contains l then kept ++ [l] else kept

theorem kept_eq (b : Block) : b.kept = (b.stores.map Assign.target).foldl (keep b.reads) [] := rfl

theorem isPrefix_foldl_keep (reads ts acc : List Nat) : acc <+: ts.foldl (keep reads) acc := by
  induction ts generalizing acc with
  | nil => exact List.prefix_rfl
  | cons t ts ih =>
    rw [List.foldl_cons]
    refine List.IsPrefix.trans ?_ (ih _)
    unfold keep
    split
    · exact List.prefix_append _ _
    · exact List.prefix_rfl

/-- In the order of their first stores the kept locals are numbered one after the other. -/
theorem foldl_keep_renumber {kept reads reads' : List Nat}
    (hreads' : ∀ l < kept.length, l ∈ reads') {ts acc : List Nat}
    (hmem : ∀ l, l ∈ kept ↔ l ∈ acc ∨ l ∈ ts ∧ l ∈ reads)
    (h : ts.foldl (keep reads) acc = kept) :
    ((ts.filter kept.contains).map (renumber kept)).foldl (keep reads') (List.range acc.length)
      = List.range kept.length := by
  induction ts generalizing acc with
  | nil =>
    rw [List.foldl_nil] at h
    rw [h]
    rfl
  | cons t ts ih =>
    have hprefix : keep reads acc t <+: kept := h ▸ isPrefix_foldl_keep reads ts _
    rw [List.foldl_cons] at h
    by_cases hnew : (reads.contains t && !acc.contains t) = true
    · -- a new local gets the next number
      have hkeep : keep reads acc t = acc ++ [t] := if_pos hnew
      rw [hkeep] at h hprefix
      simp only [Bool.and_eq_true, List.contains_iff_mem, Bool.not_eq_true',
        ← Bool.not_eq_true] at hnew
      obtain ⟨hread, hacc⟩ := hnew
      have ht : t ∈ kept := (hmem t).2 (.inr ⟨List.mem_cons_self .., hread⟩)
      have hlt : acc.length < kept.length := by
        have := hprefix.length_le
        rw [List.length_append, List.length_singleton] at this
        omega
      have hindex : renumber kept t = acc.length := by
        obtain ⟨rest, hrest⟩ := hprefix
        rw [renumber_eq ht, ← hrest, List.append_assoc, List.idxOf_append_of_notMem hacc,
          List.singleton_append, List.idxOf_cons_self, Nat.add_zero]
      have hstep : keep reads' (List.range acc.length) acc.length
          = List.range (acc ++ [t]).length := by
        rw [keep, if_pos, List.length_append, List.length_singleton, List.range_succ]
        simpa using hreads' _ hlt
      rw [List.filter_cons_of_pos (List.contains_iff_mem.2 ht), List.map_cons, List.foldl_cons,
        hindex, hstep]
      refine ih (fun l => ?_) h
      rw [hmem l, List.mem_append, List.mem_singleton, List.mem_cons]
      constructor
      · rintro (hl | ⟨rfl | hl, hr⟩)
        exacts [.inl (.inl hl), .inl (.inr rfl), .inr ⟨hl, hr⟩]
      · rintro ((hl | rfl) | ⟨hl, hr⟩)
        exacts [.inl hl, .inr ⟨.inl rfl, hread⟩, .inr ⟨.inr hl, hr⟩]
    · -- a local that was met before, or that no statement reads
      have hkeep : keep reads acc t = acc := if_neg hnew
      rw [hkeep] at h hprefix
      simp only [Bool.and_eq_true, List.contains_iff_mem, Bool.not_eq_true',
        ← Bool.not_eq_true, not_and, not_not] at hnew
      have hmem' : ∀ l, l ∈ kept ↔ l ∈ acc ∨ l ∈ ts ∧ l ∈ reads := by
        intro l
        rw [hmem l, List.mem_cons]
        constructor
        · rintro (hl | ⟨rfl | hl, hr⟩)
          exacts [.inl hl, .inl (hnew hr), .inr ⟨hl, hr⟩]
        · rintro (hl | ⟨hl, hr⟩)
          exacts [.inl hl, .inr ⟨.inr hl, hr⟩]
      by_cases ht : t ∈ kept
      · have hacc : t ∈ acc := by
          rcases (hmem t).1 ht with hacc | ⟨-, hr⟩
          · exact hacc
          · exact hnew hr
        have hindex : renumber kept t < acc.length := by
          obtain ⟨rest, hrest⟩ := hprefix
          rw [renumber_eq ht, ← hrest, List.idxOf_append_of_mem hacc]
          exact List.idxOf_lt_length_of_mem hacc
        have hstep : keep reads' (List.range acc.length) (renumber kept t)
            = List.range acc.length := by
          rw [keep, if_neg]
          simpa using fun _ => hindex
        rw [List.filter_cons_of_pos (List.contains_iff_mem.2 ht), List.map_cons, List.foldl_cons,
          hstep]
        exact ih hmem' h
      · rw [List.filter_cons_of_neg (by simpa using ht)]
        exact ih hmem' h

theorem nodup_kept (b : Block) : b.kept.Nodup :=
  (keep_spec b.reads (b.stores.map Assign.target) [] List.nodup_nil).1

theorem length_locals_normalize (b : Block) : b.normalize.locals.length = b.kept.length := by
  rw [normalize, List.length_map]

theorem map_target_normalize (b : Block) :
    b.normalize.stores.map Assign.target
      = ((b.stores.map Assign.target).filter b.kept.contains).map (renumber b.kept) := by
  rw [normalize, List.map_map, List.filter_map, List.map_map]
  rfl

theorem target_lt_normalize {b : Block} {l : Nat} (hl : l ∈ b.normalize.stores.map Assign.target) :
    l < b.normalize.locals.length := by
  rw [map_target_normalize] at hl
  obtain ⟨m, hm, rfl⟩ := List.mem_map.1 hl
  rw [length_locals_normalize]
  exact renumber_lt (List.contains_iff_mem.1 (List.mem_filter.1 hm).2)

/-- If all locals of a normal form are read, they are kept in the order of their numbers. -/
theorem kept_normalize {b : Block}
    (h : ∀ l < b.normalize.locals.length, l ∈ b.normalize.reads) :
    b.normalize.kept = List.range b.normalize.locals.length := by
  rw [length_locals_normalize] at h ⊢
  rw [kept_eq, map_target_normalize]
  exact foldl_keep_renumber h (fun l => by rw [mem_kept]; simp) rfl

theorem renumber_range (n l : Nat) : renumber (List.range n) l = l := by
  by_cases hl : l < n
  · rw [renumber_eq (List.mem_range.2 hl)]
    have hlt : List.idxOf l (List.range n) < (List.range n).length :=
      List.idxOf_lt_length_of_mem (List.mem_range.2 hl)
    have hget := List.getElem_idxOf hlt
    rwa [List.getElem_range] at hget
  · rw [renumber, List.idxOf?_eq_none_iff.2 (by simpa using hl), Option.getD_none]

theorem renumberExpr_range (n : Nat) (e : Expr) : renumberExpr (List.range n) e = e := by
  induction e using Expr.induction with
  | node op shape args ih =>
    have hop : renumberOp (List.range n) op = op := by
      unfold renumberOp
      split
      · rw [renumber_range]
      · rfl
    rw [renumberExpr_node, hop, List.map_congr_left ih, List.map_id']

theorem normalize_eq_self {b : Block} (hkept : b.kept = List.range b.locals.length)
    (htargets : ∀ s ∈ b.stores, s.target < b.locals.length) : b.normalize = b := by
  obtain ⟨locals, stores, result⟩ := b
  rw [normalize, hkept]
  congr 1
  · refine List.ext_getElem (by simp) fun i h₁ h₂ => ?_
    simp [List.getD_eq_getElem?_getD, List.getElem?_eq_getElem h₂]
  · rw [List.filter_eq_self.2 fun s hs => by simpa using htargets s hs]
    refine (List.map_congr_left fun s _ => ?_).trans (List.map_id stores)
    rw [renumber_range, renumberExpr_range]
    rfl
  · exact renumberExpr_range _ _

/-- **Fixed points.** Normalizing a normal form changes nothing exactly if every local of it is read
by one of its statements. -/
theorem normalize_normalize_iff (b : Block) :
    b.normalize.normalize = b.normalize ↔
      ∀ l < b.normalize.locals.length, l ∈ b.normalize.reads := by
  constructor
  · intro h l hl
    have hsub : b.normalize.kept ⊆ List.range b.normalize.locals.length := fun m hm =>
      List.mem_range.2 (target_lt_normalize (mem_kept.1 hm).1)
    have hlen : (List.range b.normalize.locals.length).length ≤ b.normalize.kept.length := by
      rw [← length_locals_normalize b.normalize, h, List.length_range]
    -- as many different locals are kept as there are, so all of them are
    have hperm := (List.subperm_of_subset b.normalize.nodup_kept hsub).perm_of_length_le hlen
    exact (mem_kept.1 (hperm.mem_iff.2 (List.mem_range.2 hl))).2
  · intro h
    exact normalize_eq_self (kept_normalize h) fun s hs =>
      target_lt_normalize (List.mem_map_of_mem hs)

end Block

/-! ## Bodies -/

/-- An expression that checks reads only locals that are set. -/
theorem Env.set_of_mem_reads {Γ : Env} {ρ : List (Option Shape)} {e : Expr} (he : e.Sized)
    {s : Shape} (h : Γ.checker.expr ρ e = .ok s) {l : Nat} (hl : l ∈ e.reads) :
    ∃ v, ρ.getD l none = some v := by
  induction e using Expr.induction generalizing s with
  | node op shape args ih =>
    obtain ⟨htakes, hargs⟩ := Expr.sized_node.1 he
    cases hop : op.local? with
    | some i =>
      obtain rfl := Op.local?_eq_some.1 hop
      rw [htakes.eq_nil rfl] at hl
      rw [Evaluator.expr_local, Evaluator.read_eq_ok] at h
      rcases Expr.mem_reads_node.1 hl with hl | ⟨a, ha, -⟩
      · obtain rfl := Option.some.inj hl
        exact ⟨s, h⟩
      · cases ha
    | none =>
      rw [Evaluator.expr_node ρ hop] at h
      obtain ⟨-, shapes, hshapes, -⟩ := Env.checker_node_eq_ok.1 h
      rcases Expr.mem_reads_node.1 hl with hl | ⟨a, ha, hl⟩
      · rw [hop] at hl
        cases hl
      · obtain ⟨t, -, ht⟩ := ok_of_mem_of_mapM hshapes (List.mem_map_of_mem ha)
        exact ih a ha (hargs a ha) ht hl

theorem Env.reads_of_stores {Γ : Env} {ss : List Assign} {ρ σ : List (Option Shape)}
    (hss : ∀ s ∈ ss, s.value.Sized) (h : Γ.checker.stores ρ ss = .ok σ) :
    (∀ l v, σ.getD l none = some v →
        l ∈ ss.map Assign.target ∨ ∃ w, ρ.getD l none = some w)
      ∧ ∀ s ∈ ss, ∀ l ∈ s.value.reads,
          l ∈ ss.map Assign.target ∨ ∃ w, ρ.getD l none = some w := by
  induction ss generalizing ρ with
  | nil =>
    obtain rfl := Except.ok.inj h
    exact ⟨fun l v hl => .inr ⟨v, hl⟩, by simp⟩
  | cons s ss ih =>
    obtain ⟨v, hv, h⟩ := Evaluator.stores_cons_eq_ok.1 h
    obtain ⟨hset, hreads⟩ := ih (fun t ht => hss t (List.mem_cons_of_mem _ ht)) h
    -- what is set after the first store was set before it or is its target
    have hback : ∀ {l}, (l ∈ ss.map Assign.target ∨
        ∃ w, (ρ.set s.target (some v)).getD l none = some w) →
        l ∈ (s :: ss).map Assign.target ∨ ∃ w, ρ.getD l none = some w := by
      rintro l (hl | ⟨w, hw⟩)
      · exact .inl (List.mem_cons_of_mem _ hl)
      · by_cases hsl : s.target = l
        · exact .inl (hsl ▸ List.mem_cons_self ..)
        · rw [Evaluator.getD_set_ne hsl] at hw
          exact .inr ⟨w, hw⟩
    refine ⟨fun l w hl => hback (hset l w hl), fun t ht l hl => ?_⟩
    rcases List.mem_cons.1 ht with rfl | ht
    · exact .inr (Env.set_of_mem_reads (hss t (List.mem_cons_self ..)) hv hl)
    · exact hback (hreads t ht l hl)

theorem Block.Checks.readsStored {Γ : Env} {b : Block} {s : Shape} (h : b.Checks Γ s) :
    b.ReadsStored := by
  obtain ⟨ρ, hρ, hresult⟩ := bind_eq_ok.1 h.checks
  obtain ⟨hset, hreads⟩ := Env.reads_of_stores (fun s hs => h.formed.sized_store hs) hρ
  have hempty : ∀ {l}, (l ∈ b.stores.map Assign.target ∨
      ∃ w, (List.replicate b.locals.length (none : Option Shape)).getD l none = some w) →
      l ∈ b.stores.map Assign.target := by
    rintro l (hl | ⟨w, hw⟩)
    · exact hl
    · simp at hw
  intro l hl
  obtain ⟨e, he, hl⟩ := List.mem_flatMap.1 hl
  rcases List.mem_append.1 he with he | he
  · obtain ⟨t, ht, rfl⟩ := List.mem_map.1 he
    exact hempty (hreads t ht l hl)
  · obtain rfl := List.mem_singleton.1 he
    obtain ⟨v, hv⟩ := Env.set_of_mem_reads h.formed.sized_result hresult hl
    exact hempty (hset l v hv)

theorem Block.toBody_inj {b b' : Block} : b.toBody = b'.toBody ↔ b = b' := by
  refine ⟨fun h => ?_, congrArg _⟩
  rw [← toBody_block b, h, toBody_block]

/-- The bodies of the functions and procedures of a draft. -/
def Draft.bodies (d : Draft) : List Body :=
  d.functions.map Function.body ++ (d.transition.toList ++ d.evaluation.toList).map Procedure.body

namespace Grammar

/-- The bodies of a module that parses all check. -/
theorem parse_checks {tokens : List Token} {d : Draft} (h : parse tokens = .ok d) {b : Body}
    (hb : b ∈ d.bodies) : ∃ Γ s, b.block.Checks Γ s := by
  obtain ⟨t, e, ht, he⟩ := parse_procedures h
  have hshaped := parse_wellShaped h ht he
  rw [Draft.bodies, ht, he] at hb
  rcases List.mem_append.1 hb with hb | hb
  · obtain ⟨f, hf, rfl⟩ := List.mem_map.1 hb
    obtain ⟨i, hi⟩ := List.getElem?_of_mem hf
    exact ⟨_, _, hshaped.checked i f hi⟩
  · rcases List.mem_pair.1 hb with rfl | rfl
    · exact ⟨_, _, hshaped.transition_checks⟩
    · exact ⟨_, _, hshaped.evaluation_checks⟩

end Grammar

/-- **Sharing twice.** A second run over a body that was accepted hoists nothing and normalizes once
more, so it changes nothing exactly if sharing is not asked for or every local that the first run
leaves is read by a statement that it leaves. -/
theorem Body.share_share_iff {tokens : List Token} {d : Draft} (h : Grammar.parse tokens = .ok d)
    {b : Body} (hb : b ∈ d.bodies) (o : SharingOptions) :
    ((b.share o).share o = if o.enabled then (b.share o).normalize else b.share o)
      ∧ ((b.share o).share o = b.share o ↔
          (o.enabled = true → ∀ l < (b.share o).locals.length, l ∈ (b.share o).block.reads)) := by
  obtain ⟨Γ, s, hchecks⟩ := Grammar.parse_checks h hb
  have hblock := Body.block_share o b
  by_cases ho : o.enabled = true
  · rw [if_pos ho] at hblock
    have hfirst : b.share o = (b.block.share o.minWeight).toBody := if_pos ho
    have hsecond : (b.share o).share o = (b.share o).normalize := by
      rw [share, if_pos ho, hblock, Block.share_share hchecks.readsStored, normalize, hblock]
    refine ⟨by rw [if_pos ho, hsecond], ?_⟩
    have hlocals : (b.share o).locals = (b.block.share o.minWeight).locals :=
      congrArg Block.locals hblock
    rw [hsecond, normalize, hblock, hlocals, hfirst, Block.toBody_inj]
    simp only [ho, true_imp_iff]
    exact Block.normalize_normalize_iff _
  · have hsame : (b.share o).share o = b.share o := if_neg ho
    exact ⟨by rw [if_neg ho, hsame], fun _ h => absurd h ho, fun _ => hsame⟩

/-- A transition with a local that only a dropped store reads, and an evaluation whose locals are
stored in another order than they are declared. -/
def chainText : List Char :=
  "(module (field prime 340282366920938463463374607393113505793)
    (transition (span 1) (result vector 2)
      (local scalar) (local scalar)
      (store.local 0 (scalar 1))
      (store.local 1 (load.local 0))
      (load.trace 0))
    (evaluation (span 2) (result vector 2)
      (local vector 2) (local vector 2)
      (store.local 1 (load.trace 0))
      (store.local 0 (mul (load.trace 1) (load.local 1)))
      (sub (load.local 0) (load.local 1))))".toList

/-- Sharing renumbers the locals of the evaluation, and a second run leaves them. -/
theorem Body.share_share_swapped :
    ∃ tokens d b, Token.scan chainText = .ok tokens ∧ Grammar.parse tokens = .ok d ∧ b ∈ d.bodies
      ∧ (b.share {}).share {} = b.share {} ∧ (b.share {}).block.stores.map Assign.target = [0, 1]
      ∧ b.block.stores.map Assign.target = [1, 0] := by
  have hcheck : ((Token.scan chainText).toOption.any fun tokens =>
      (Grammar.parse tokens).toOption.any fun d => d.evaluation.any fun e =>
        decide (e.body.block.Unrepeated 3)
          && decide (∀ l < e.body.block.normalize.locals.length,
            l ∈ e.body.block.normalize.reads)
          && e.body.block.normalize.stores.map Assign.target == [0, 1]
          && e.body.block.stores.map Assign.target == [1, 0]) = true := by
    unfold chainText
    rewrite [String.toList_ofList]
    decide +kernel
  simp only [Option.any_eq_true, Bool.and_eq_true, beq_iff_eq, decide_eq_true_iff,
    toOption_eq_some] at hcheck
  obtain ⟨tokens, hscan, d, hparse, e, he, ⟨⟨hunrepeated, hreads⟩, hafter⟩, hbefore⟩ := hcheck
  have hmem : e.body ∈ d.bodies := by
    rw [Draft.bodies, he]
    simp
  have hblock : (e.body.share {}).block = e.body.block.normalize := by
    have hshare : (e.body.share {}).block = (Block.hoistAll 3 _ e.body.block).normalize :=
      e.body.block_share {}
    rwa [Block.hoistAll_eq_self hunrepeated] at hshare
  have hlocals : (e.body.share {}).locals = e.body.block.normalize.locals := by
    rw [← hblock]
    rfl
  have hsame := (Body.share_share_iff hparse hmem {}).2.2 fun _ => by rwa [hlocals, hblock]
  exact ⟨tokens, d, e.body, hscan, hparse, hmem, hsame, by rwa [hblock], hbefore⟩

/-- The first run drops the second local of the transition, and the second run the first one. -/
theorem Body.share_chain_ne :
    ∃ tokens d b, Token.scan chainText = .ok tokens ∧ Grammar.parse tokens = .ok d ∧ b ∈ d.bodies
      ∧ (b.share {}).share {} ≠ b.share {} := by
  have hcheck : ((Token.scan chainText).toOption.any fun tokens =>
      (Grammar.parse tokens).toOption.any fun d => d.transition.any fun t =>
        decide ((t.body.share {}).share {} ≠ t.body.share {})) = true := by
    unfold chainText
    rewrite [String.toList_ofList]
    decide +kernel
  simp only [Option.any_eq_true, decide_eq_true_iff, toOption_eq_some] at hcheck
  obtain ⟨tokens, hscan, d, hparse, t, ht, hne⟩ := hcheck
  have hmem : t.body ∈ d.bodies := by
    rw [Draft.bodies, ht]
    simp
  exact ⟨tokens, d, t.body, hscan, hparse, hmem, hne⟩

end Arithmetization
