import Arithmetization.Proofs.Agreement

/-!
Public static registers do not depend on secret inputs.

A register is secret exactly if it draws on a secret input: masks are followed from source to source
until the chain ends in an input or in a cycle (`RegisterSet.DrawsFrom`), and the flag that the
register set records is the same along the whole chain (`RegisterSet.DrawsFrom.secrecy_eq`). Two
provers of one machine whose input trees have groups of the same lengths have one layout, since a
layout is made from these lengths alone (`Prover.Built.layout_unique`). If the trees of the public
inputs are the same too, their traces have one length and their public columns are equal
(`Prover.public_statics_agree`).
-/

set_option autoImplicit false

namespace Arithmetization

/-! ## Secret registers -/

namespace RegisterSet

/-- Register `i` gets its values from register `j` through a chain of masks. -/
inductive DrawsFrom (set : RegisterSet) : Nat → Nat → Prop
  | refl (i : Nat) : DrawsFrom set i i
  | mask {i source value j : Nat} (hi : set.registers[i]? = some (.mask source value))
    (h : DrawsFrom set source j) : DrawsFrom set i j

/-- The indexes of the flags that are set. -/
theorem mem_places {flags : List Bool} {i : Nat} :
    i ∈ (flags.zipIdx.filter Prod.fst).map Prod.snd ↔ flags[i]? = some true := by
  simp [List.mem_zipIdx_iff_getElem?]

theorem mem_secrets {set : RegisterSet} {i : Nat} :
    i ∈ set.secrets ↔ set.secrecy[i]? = some true :=
  mem_places

variable {set : RegisterSet} {modulus : Nat}

theorem secrecy_input {i : Nat} {r : InputRegister} (hi : set.registers[i]? = some (.input r)) :
    set.secrecy[i]? = some r.secret := by
  rw [secrecy_eq, getElem?_grow _ hi, flag]

theorem secrecy_cycle {i : Nat} {source : CycleSource}
    (hi : set.registers[i]? = some (.cycle source)) : set.secrecy[i]? = some false := by
  rw [secrecy_eq, getElem?_grow _ hi, flag]

/-- A mask is as secret as its source. -/
theorem secrecy_mask (h : set.Admissible modulus) {i source value : Nat}
    (hi : set.registers[i]? = some (.mask source value)) :
    set.secrecy[i]? = set.secrecy[source]? := by
  have hlt : source < i := (h hi).1
  have hin : source < set.secrecy.length := by
    rw [length_secrecy]
    exact hlt.trans (List.getElem?_eq_some_iff.1 hi).1
  rw [secrecy_eq, getElem?_grow _ hi, flag, List.getD_eq_getElem?_getD, getElem?_grow_take _ hlt,
    ← secrecy_eq, List.getElem?_eq_getElem hin, Option.getD_some]

/-- The flag is the same along a chain. -/
theorem DrawsFrom.secrecy_eq (h : set.Admissible modulus) {i j : Nat} (hij : set.DrawsFrom i j) :
    set.secrecy[i]? = set.secrecy[j]? := by
  induction hij with
  | refl i => rfl
  | mask hi _ ih => exact (secrecy_mask h hi).trans ih

/-- Every chain ends, since a mask comes after its source. -/
theorem exists_drawsFrom (h : set.Admissible modulus) {i : Nat} (hi : i < set.size) :
    ∃ j, set.DrawsFrom i j ∧ ((∃ r, set.registers[j]? = some (.input r))
      ∨ ∃ source, set.registers[j]? = some (.cycle source)) := by
  induction i using Nat.strong_induction_on with
  | _ i ih =>
    have hget : set.registers[i]? = some set.registers[i] := List.getElem?_eq_getElem hi
    cases hr : set.registers[i] with
    | input r => exact ⟨i, .refl i, .inl ⟨r, hr ▸ hget⟩⟩
    | cycle source => exact ⟨i, .refl i, .inr ⟨source, hr ▸ hget⟩⟩
    | mask source value =>
      rw [hr] at hget
      have hlt : source < i := (h hget).1
      obtain ⟨j, hj, hend⟩ := ih source hlt (hlt.trans hi)
      exact ⟨j, .mask hget hj, hend⟩

/-- A register is secret if its chain ends in a secret input. -/
theorem mem_secrets_iff (h : set.Admissible modulus) {i : Nat} :
    i ∈ set.secrets ↔
      ∃ j r, set.DrawsFrom i j ∧ set.registers[j]? = some (.input r) ∧ r.secret = true := by
  rw [mem_secrets]
  constructor
  · intro hi
    have hlt : i < set.size := set.length_secrecy ▸ (List.getElem?_eq_some_iff.1 hi).1
    obtain ⟨j, hj, ⟨r, hr⟩ | ⟨source, hsource⟩⟩ := exists_drawsFrom h hlt
    · rw [hj.secrecy_eq h, secrecy_input hr] at hi
      exact ⟨j, r, hj, hr, Option.some.inj hi⟩
    · rw [hj.secrecy_eq h, secrecy_cycle hsource] at hi
      cases hi
  · rintro ⟨j, r, hj, hr, hsecret⟩
    rw [hj.secrecy_eq h, secrecy_input hr, hsecret]

/-- A register whose chain ends in a public input or in a cycle is public. -/
theorem not_mem_secrets (h : set.Admissible modulus) {i j : Nat} (hij : set.DrawsFrom i j)
    (hj : (∃ r, set.registers[j]? = some (.input r) ∧ r.secret = false)
      ∨ ∃ source, set.registers[j]? = some (.cycle source)) : i ∉ set.secrets := by
  rw [mem_secrets, hij.secrecy_eq h]
  rcases hj with ⟨r, hr, hpublic⟩ | ⟨source, hsource⟩
  · simp [secrecy_input hr, hpublic]
  · simp [secrecy_cycle hsource]

end RegisterSet

/-! ## Groups -/

namespace InputTree

/-- The lengths of the innermost lists of a tree for a register of the given rank. A value that
stands for itself is a group of one. -/
def groups : Nat → InputTree → List Nat
  | _, .value _ => [1]
  | 0, .list items => [items.length]
  | rank + 1, .list items => items.flatMap (groups rank)

mutual

theorem flatten_groups {rank : Nat} {t : InputTree} {shape numbers : List Nat}
    (h : t.flatten rank = .ok (shape, numbers)) : shape = t.groups rank := by
  cases t with
  | value n => cases h
  | list items =>
    cases rank with
    | zero =>
      obtain ⟨values, -, h⟩ := bind_eq_ok.1 h
      cases h
      rfl
    | succ rank => exact flattenAll_groups h

theorem flattenAll_groups {rank : Nat} {ts : List InputTree} {shape numbers : List Nat}
    (h : flattenAll rank ts = .ok (shape, numbers)) : shape = ts.flatMap (groups rank) := by
  cases ts with
  | nil =>
    cases h
    rfl
  | cons t ts =>
    obtain ⟨⟨first, values⟩, hfirst, h⟩ := bind_eq_ok.1 h
    obtain ⟨⟨rest, values'⟩, hrest, h⟩ := bind_eq_ok.1 h
    cases h
    rw [flatten_groups hfirst, flattenAll_groups hrest, List.flatMap_cons]

end

end InputTree

/-- The group lengths of a tree do not depend on its values. -/
theorem InputSlot.values_groups {slot : InputSlot} {tree : InputTree} {shape : List Nat}
    {values : List Element} (h : slot.values tree = .ok (shape, values)) :
    shape = tree.groups slot.rank := by
  unfold InputSlot.values at h
  dsimp only at h
  split at h
  · -- a scalar register given its value without a list
    obtain ⟨_, hsingle, h⟩ := bind_eq_ok.1 h
    cases hsingle
    obtain ⟨_, -, h⟩ := bind_eq_ok.1 h
    cases h
    cases slot.rank <;> rfl
  · obtain ⟨⟨shape', numbers⟩, hflatten, h⟩ := bind_eq_ok.1 h
    obtain ⟨_, -, h⟩ := bind_eq_ok.1 h
    cases h
    exact InputTree.flatten_groups hflatten

namespace Machine

variable {text : List Char} {o : CompileOptions} {s : Schema} {mo : MachineOptions} {m : Machine}

theorem secrets_eq (hm : ofSchema s mo = .ok m) : m.secrets = s.registers.secrets := by
  obtain ⟨-, rules, ext, -, -, rfl⟩ := ofSchema_eq_ok hm
  rfl

theorem length_statics_eq (hs : compile text o = .ok s) (hm : ofSchema s mo = .ok m) :
    m.statics.length = s.registers.size := by
  obtain ⟨hfield, rules, ext, hrules, -, rfl⟩ := ofSchema_eq_ok hm
  exact length_statics (compile_wellShaped hs) hfield hrules

/-- A machine lists the registers with a secret rule. -/
theorem isSecret_eq_false (hs : compile text o = .ok s) (hm : ofSchema s mo = .ok m) {i : Nat}
    {rule : StaticRule} (hrule : m.statics[i]? = some rule) (hi : i ∉ m.secrets) :
    rule.isSecret = false := by
  obtain ⟨-, hflags⟩ := statics_formed hs hm
  rw [hflags, RegisterSet.mem_places, List.getElem?_map, hrule, Option.map_some,
    Option.some.injEq, Bool.not_eq_true] at hi
  exact hi

/-- The group lengths of the trees of all input registers. -/
def groups (m : Machine) (trees : List InputTree) : List (List Nat) :=
  (m.inputs.zip trees).map fun (slot, tree) => tree.groups slot.rank

end Machine

/-- The result in one place comes from what stands there. -/
theorem getElem?_of_mapM {ε α β : Type} {f : α → Except ε β} {xs : List α} {ys : List β}
    (h : xs.mapM f = .ok ys) (i : Nat) : ys[i]? = xs[i]?.bind fun x => (f x).toOption := by
  have hall := mapM_eq_ok.1 h
  clear h
  induction hall generalizing i with
  | nil => rfl
  | cons hxy _ ih =>
    cases i with
    | zero => simp [hxy, Except.toOption]
    | succ i => exact ih i

namespace Prover

theorem map_fst_inputValues {slots : List (InputSlot × InputTree)}
    {inputs : List (List Nat × List Element)} (h : inputValues slots = .ok inputs) :
    inputs.map Prod.fst = slots.map fun (slot, tree) => tree.groups slot.rank := by
  have hall := mapM_eq_ok.1 h
  clear h
  induction hall with
  | nil => rfl
  | cons hvalues _ ih => exact congrArg₂ List.cons (InputSlot.values_groups hvalues) ih

namespace Built

variable {m : Machine} {trees trees' : List InputTree} {p p' : Prover}
  {inputs inputs' : List (List Nat × List Element)} {layout layout' : Layout}

/-- Inputs with groups of the same lengths have one layout. -/
theorem layout_unique (h : Built m trees p inputs layout) (h' : Built m trees' p' inputs' layout')
    (hgroups : m.groups trees = m.groups trees') : layout = layout' := by
  have hshapes : inputs.map Prod.fst = inputs'.map Prod.fst := by
    rw [map_fst_inputValues h.inputs_eq, map_fst_inputValues h'.inputs_eq]
    exact hgroups
  have hlayout := h.layout_eq
  rw [hshapes, h'.layout_eq] at hlayout
  exact (Except.ok.inj hlayout).symm

/-- Input registers with the same tree have the same column. -/
theorem inputColumns_eq (h : Built m trees p inputs layout)
    (h' : Built m trees' p' inputs' layout') (l : Layout) {i : Nat}
    (htree : trees[i]? = trees'[i]?) :
    (inputColumns l inputs)[i]? = (inputColumns l inputs')[i]? := by
  have hinput : inputs[i]? = inputs'[i]? := by
    rw [getElem?_of_mapM h.inputs_eq, getElem?_of_mapM h'.inputs_eq, List.zip_eq_zipWith,
      List.zip_eq_zipWith, List.getElem?_zipWith, List.getElem?_zipWith, htree]
  rw [inputColumns, inputColumns, List.getElem?_mapIdx, List.getElem?_mapIdx, hinput]

/-- Public registers have the same column. -/
theorem statics_eq_of_public (h : Built m trees p inputs layout)
    (h' : Built m trees' p' inputs' layout) (hformed : StaticRule.Formed m.inputs m.statics)
    (hpublic : ∀ (i : Nat) (slot : InputSlot), m.inputs[i]? = some slot → slot.secret = false →
      trees[i]? = trees'[i]?) {i : Nat} {rule : StaticRule} (hrule : m.statics[i]? = some rule)
    (hflag : rule.isSecret = false) : p.statics[i]? = p'.statics[i]? := by
  have hagree := StaticRule.columns_agree hformed layout.traceLength
    (fun hslot hsecret => h.inputColumns_eq h' layout (hpublic _ _ hslot hsecret)) hrule hflag
  rw [h.statics_eq, h'.statics_eq, List.getElem?_map, List.getElem?_map] at hagree
  exact Option.map_injective (Option.some_injective _) hagree

end Built

/-- **Public static registers do not depend on secret inputs.** Two provers of one machine, given
input trees with groups of the same lengths that are equal for public inputs, have traces of one
length and the same column for every register that is not secret. The secret registers are those
that draw on a secret input, so a mask of masks of a public input or of a cycle has the same column
too. -/
theorem public_statics_agree {text : List Char} {o : CompileOptions} {s : Schema}
    (hs : compile text o = .ok s) {mo : MachineOptions} {m : Machine}
    (hm : Machine.ofSchema s mo = .ok m) {trees trees' : List InputTree} {p p' : Prover}
    (hp : ofInputs m trees = .ok p) (hp' : ofInputs m trees' = .ok p')
    (hgroups : m.groups trees = m.groups trees')
    (hpublic : ∀ (i : Nat) (slot : InputSlot), m.inputs[i]? = some slot → slot.secret = false →
      trees[i]? = trees'[i]?) :
    p.traceLength = p'.traceLength
      ∧ (∀ i < s.registers.size, i ∉ m.secrets →
          ∃ column, p.statics[i]? = some column ∧ p'.statics[i]? = some column)
      ∧ (∀ i, i ∈ m.secrets ↔ ∃ j r, s.registers.DrawsFrom i j
          ∧ s.registers.registers[j]? = some (.input r) ∧ r.secret = true)
      ∧ ∀ i < s.registers.size, ∀ j, s.registers.DrawsFrom i j →
          ((∃ r, s.registers.registers[j]? = some (.input r) ∧ r.secret = false)
            ∨ ∃ source, s.registers.registers[j]? = some (.cycle source)) →
          ∃ column, p.statics[i]? = some column ∧ p'.statics[i]? = some column := by
  obtain ⟨inputs, layout, hb⟩ := ofInputs_eq_ok hp
  obtain ⟨inputs', layout', hb'⟩ := ofInputs_eq_ok hp'
  obtain rfl := hb.layout_unique hb' hgroups
  obtain ⟨hformed, -⟩ := Machine.statics_formed hs hm
  have hsize := Machine.length_statics_eq hs hm
  have hadmissible : s.registers.Admissible s.modulus := (compile_wellShaped hs).admissible
  have hcolumns : ∀ i < s.registers.size, i ∉ m.secrets →
      ∃ column, p.statics[i]? = some column ∧ p'.statics[i]? = some column := by
    intro i hi hi'
    have hrule : m.statics[i]? = some (m.statics.get ⟨i, hsize ▸ hi⟩) := List.getElem?_eq_getElem _
    have hflag := Machine.isSecret_eq_false hs hm hrule hi'
    have hlt : i < p.statics.length := by
      rw [hb.length_statics, hsize]
      exact hi
    have hcolumn : p.statics[i]? = some p.statics[i] := List.getElem?_eq_getElem hlt
    exact ⟨_, hcolumn, (hb.statics_eq_of_public hb' hformed hpublic hrule hflag) ▸ hcolumn⟩
  refine ⟨?_, hcolumns, fun i => ?_, fun i hi j hij hj => hcolumns i hi ?_⟩
  · have hexecution := hb.execution_eq
    rw [hb'.execution_eq] at hexecution
    rw [traceLength, traceLength, Except.ok.inj hexecution]
  · rw [Machine.secrets_eq hm, RegisterSet.mem_secrets_iff hadmissible]
  · rw [Machine.secrets_eq hm]
    exact RegisterSet.not_mem_secrets hadmissible hij hj

/-- Other inputs of the layered module: the same public tree, and groups of the same lengths with
other secret values. -/
def otherLayeredTrees : List InputTree :=
  [.list [.value 5, .value 6], .list [.list [.value 1, .value 7], .list [.value 3, .value 4]]]

/-- Its two provers have different columns for the secret input and the same one for the mask of the
public input. -/
theorem public_statics_agree_layered :
    ∃ s m p p', compile layeredText { sharing := { enabled := false } } = .ok s
      ∧ Machine.ofSchema s {} = .ok m
      ∧ ofInputs m layeredTrees = .ok p ∧ ofInputs m otherLayeredTrees = .ok p'
      ∧ p.statics[1]? ≠ p'.statics[1]? ∧ p.traceLength = p'.traceLength
      ∧ ∃ column, p.statics[4]? = some column ∧ p'.statics[4]? = some column := by
  have hcheck : ((compile layeredText { sharing := { enabled := false } }).toOption.any fun s =>
      s.registers.size == 7 && (Machine.ofSchema s {}).toOption.any fun m =>
        m.inputs.map InputSlot.secret == [false, true]
        && m.groups layeredTrees == m.groups otherLayeredTrees && !m.secrets.contains 4
        && (ofInputs m layeredTrees).toOption.any fun p =>
          (ofInputs m otherLayeredTrees).toOption.any fun p' =>
            p.statics[1]? != p'.statics[1]?) = true := by
    unfold layeredText
    rewrite [String.toList_ofList]
    decide +kernel
  simp only [Option.any_eq_true, Bool.and_eq_true, beq_iff_eq, bne_iff_ne, toOption_eq_some,
    Bool.not_eq_true', List.contains_eq_mem, decide_eq_false_iff_not] at hcheck
  obtain ⟨s, hs, hsize, m, hm, ⟨⟨hslots, hgroups⟩, hmask⟩, p, hp, p', hp', hdiffer⟩ := hcheck
  have hpublic : ∀ (i : Nat) (slot : InputSlot), m.inputs[i]? = some slot → slot.secret = false →
      layeredTrees[i]? = otherLayeredTrees[i]? := by
    intro i slot hslot hsecret
    have hflag : (m.inputs.map InputSlot.secret)[i]? = some false := by
      rw [List.getElem?_map, hslot, Option.map_some, hsecret]
    rw [hslots] at hflag
    rcases i with _ | _ | i
    exacts [rfl, absurd hflag (by decide), rfl]
  obtain ⟨hlength, hcolumns, -⟩ := public_statics_agree hs hm hp hp' hgroups hpublic
  exact ⟨s, m, p, p', hs, hm, hp, hp', hdiffer, hlength, hcolumns 4 (by omega) hmask⟩

end Prover

end Arithmetization
