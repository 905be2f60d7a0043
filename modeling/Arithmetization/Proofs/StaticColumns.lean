import Arithmetization.Proofs.Machines
import Arithmetization.Proofs.Transforms

/-!
The columns of static registers.

The rules of an admissible set of registers fit together (`StaticRule.Formed`): an input rule
takes a slot of the same secrecy, a cycle has a power of two of values, and a mask has an earlier
source of the same secrecy. From this the columns of the public registers do not depend on the
secret inputs (`StaticRule.columns_agree`), and the polynomial of one period, taken at a power of
the point, interpolates the whole column of a cycle (`CyclicColumn.evaluateAt_eq`).
-/

set_option autoImplicit false

namespace Arithmetization

/-! ## Cycles -/

namespace CyclicColumn

/-- A power of two of values, with their polynomial. -/
def Periodic (c : CyclicColumn) : Prop :=
  isPowerOfTwo c.period = true ∧ c.poly = Transform.interpolate c.values

theorem length_sourceValues {source : CycleSource} {values : List Element}
    (h : sourceValues source = .ok values) : values.length = source.period := by
  cases source with
  | values vs => exact (mapM_eq_ok.1 h).length_eq.symm
  | prng seed count =>
    obtain rfl := Except.ok.inj h
    simp [CycleSource.period]
  | power base count =>
    obtain ⟨b, -, h⟩ := bind_eq_ok.1 h
    obtain rfl := Except.ok.inj h
    rw [Element.powers_eq_map, List.length_map, List.length_range, CycleSource.period]

theorem ofSource_periodic {source : CycleSource} {c : CyclicColumn} (h : ofSource source = .ok c)
    (hperiod : isPowerOfTwo source.period = true) : c.Periodic := by
  obtain ⟨values, hvalues, h⟩ := bind_eq_ok.1 h
  obtain rfl := Except.ok.inj h
  refine ⟨?_, rfl⟩
  rw [period, length_sourceValues hvalues]
  exact hperiod

theorem length_column (c : CyclicColumn) (n : Nat) : ((List.range n).map c.valueAt).length = n := by
  simp

open Polynomial in
/-- The polynomial of the period, at a power of the point, is the polynomial of the whole column: it
has the values of the column over the domain, and few enough coefficients. -/
theorem evaluateAt_eq {c : CyclicColumn} (hc : c.Periodic) {k : Nat} (hk : k ≤ Element.twoAdicity)
    (hdvd : c.period ∣ 2 ^ k) (x : Element) :
    c.evaluateAt x (2 ^ k) =
      Transform.eval (Transform.interpolate ((List.range (2 ^ k)).map c.valueAt)) x := by
  obtain ⟨a, ha⟩ := isPowerOfTwo_iff.1 hc.1
  rw [ha] at hdvd
  have hak : a ≤ k := (Nat.pow_dvd_pow_iff_le_right (by decide)).1 hdvd
  obtain ⟨b, rfl⟩ := Nat.exists_eq_add_of_le hak
  have hquot : 2 ^ (a + b) / c.period = 2 ^ b := by
    rw [ha, pow_add, Nat.mul_div_cancel_left _ (by positivity)]
  have hlen : c.values.length = 2 ^ a := ha
  have haTwo : a ≤ Element.twoAdicity := by omega
  -- The power maps the large domain onto the domain of the period, as often as the period fits.
  have hpoly : (Transform.toPoly c.poly).comp (X ^ 2 ^ b) =
      (Domain.ofOrder (a + b)).interpolant ((List.range (2 ^ (a + b))).map c.valueAt) := by
    refine Domain.eq_interpolant hk ?_ fun m hm => ?_
    · have hdeg : (Transform.toPoly c.poly).natDegree < 2 ^ a := by
        have hle := Transform.natDegree_toPoly_le c.poly
        rw [hc.2, Transform.length_interpolate haTwo hlen, ← hc.2] at hle
        have hpos : 0 < 2 ^ a := by positivity
        omega
      refine degree_le_natDegree.trans_lt ?_
      rw [natDegree_comp, natDegree_X_pow, pow_add]
      exact_mod_cast Nat.mul_lt_mul_of_pos_right hdeg (by positivity)
    · have hroot : (Element.rootOfUnity (a + b) ^ m) ^ 2 ^ b =
          Element.rootOfUnity a ^ (m % 2 ^ a) := by
        rw [← pow_mul, mul_comm, pow_mul, Element.rootOfUnity_pow hk,
          (Element.rootOfUnity_isPrimitiveRoot haTwo).eq_orderOf, pow_mod_orderOf]
      have hmod : m % 2 ^ a < 2 ^ a := Nat.mod_lt _ (by positivity)
      rw [eval_comp, eval_pow, eval_X, hroot, Transform.eval_toPoly, hc.2,
        Transform.eval_interpolate haTwo hlen hmod, List.getD_eq_getElem?_getD (l := List.map _ _),
        List.getElem?_map, List.getElem?_range hm, Option.map_some, Option.getD_some, valueAt, ha]
  rw [← Domain.eval_interpolant hk (length_column c _), ← hpoly, evaluateAt, hquot, Element.pow_eq,
    eval_comp, eval_pow, eval_X, Transform.eval_toPoly]

end CyclicColumn

/-! ## Rules -/

/-- The element that the kept ones of an accepted element lead to. -/
theorem getElem?_filterMap_countP {α β : Type} {f : α → Option β} {xs : List α} {i : Nat} {x : α}
    {y : β} (hx : xs[i]? = some x) (hy : f x = some y) :
    (xs.filterMap f)[(xs.take i).countP fun a => (f a).isSome]? = some y := by
  induction xs generalizing i with
  | nil => cases hx
  | cons a xs ih =>
    cases i with
    | zero =>
      obtain rfl := Option.some.inj hx
      simp [hy]
    | succ i =>
      have hrec := ih hx
      cases ha : f a with
      | none => simpa [ha] using hrec
      | some b => simpa [ha] using hrec

/-- The input register with `n` others before it is in slot `n`. -/
theorem InputSlot.getElem?_ofRegisters {set : RegisterSet} {i : Nat} {r : InputRegister}
    (h : set.registers[i]? = some (.input r)) :
    ∃ slot, (ofRegisters set)[(set.registers.take i).countP fun r => r.input?.isSome]? = some slot
      ∧ slot.secret = r.secret := by
  have hpair : set.registers.zipIdx[i]? = some (.input r, i) := by
    rw [List.getElem?_zipIdx, h, Option.map_some, Nat.zero_add]
  have hinputs : set.inputs = set.registers.zipIdx.filterMap fun p => p.1.input?.map (p.2, ·) := rfl
  have hinput := getElem?_filterMap_countP (f := fun p => (Register.input? p.1).map (p.2, ·)) hpair
    (y := (i, r)) rfl
  have hcount : (set.registers.zipIdx.take i).countP
        (fun p => ((Register.input? p.1).map (p.2, ·)).isSome) =
      (set.registers.take i).countP fun r => r.input?.isSome := by
    conv_rhs => rw [← List.zipIdx_map_fst 0 set.registers, ← List.map_take, List.countP_map]
    simp only [Option.isSome_map]
    rfl
  rw [hcount] at hinput
  rw [ofRegisters, List.getElem?_map, hinputs, hinput, Option.map_some]
  exact ⟨_, rfl, rfl⟩

/-- Of two powers of two the larger one is a multiple of the other; `0` stands for no power. -/
theorem dvd_max_of_two_pow {a b : Nat} (ha : ∃ k, a = 2 ^ k) (hb : b = 0 ∨ ∃ k, b = 2 ^ k) :
    a ∣ max a b := by
  rcases le_total b a with hle | hle
  · rw [max_eq_left hle]
  · obtain ⟨i, rfl⟩ := ha
    rcases hb with rfl | ⟨j, rfl⟩
    · exact absurd hle (by simp)
    · rw [max_eq_right hle]
      exact pow_dvd_pow 2 ((Nat.pow_le_pow_iff_right (by decide)).1 hle)

/-- The greatest number of a list of powers of two, found from the left, is a multiple of each; `0`
stands for no power. -/
theorem dvd_foldl_max_of_two_pow {α : Type} {f : α → Nat} {step : Nat → α → Nat}
    (hstep : ∀ n x, step n x = max n (f x)) {xs : List α}
    (h : ∀ x ∈ xs, f x = 0 ∨ ∃ k, f x = 2 ^ k) :
    (xs.foldl step 0 = 0 ∨ ∃ k, xs.foldl step 0 = 2 ^ k)
      ∧ ∀ x ∈ xs, 0 < f x → 0 < xs.foldl step 0 ∧ f x ∣ xs.foldl step 0 := by
  induction xs using List.reverseRecOn with
  | nil => exact ⟨.inl rfl, fun x hx => (by cases hx)⟩
  | append_singleton xs x ih =>
    obtain ⟨hpow, hdvd⟩ := ih fun x hx => h x (List.mem_append_left _ hx)
    have hx := h x (by simp)
    rw [List.foldl_append, List.foldl_cons, List.foldl_nil, hstep]
    refine ⟨?_, fun y hy hpos => ?_⟩
    · rcases le_total (xs.foldl step 0) (f x) with hle | hle
      · rwa [max_eq_right hle]
      · rwa [max_eq_left hle]
    rcases List.mem_append.1 hy with hy | hy
    · obtain ⟨hmax, hdvd'⟩ := hdvd y hy hpos
      have hlast := dvd_max_of_two_pow (hpow.resolve_left hmax.ne') hx
      exact ⟨by omega, hdvd'.trans hlast⟩
    · obtain rfl := List.mem_singleton.1 hy
      have hlast := dvd_max_of_two_pow (hx.resolve_left hpos.ne') hpow
      rw [max_comm] at hlast
      exact ⟨by omega, hlast⟩

namespace StaticRule

/-- The rule of a register after `inputs` input registers. -/
def RuleOf (inputs : Nat) (secret : Bool) (rule : StaticRule) : Register → Prop
  | .input _ => rule = .input inputs secret
  | .cycle source => ∃ c, CyclicColumn.ofSource source = .ok c ∧ rule = .cycle c
  | .mask source value =>
    ∃ v, CyclicColumn.fieldElement value = .ok v ∧ rule = .mask source v secret

/-- The rules of registers, place by place. -/
theorem ofRegistersFrom_getElem? {rs : List (Register × Bool)} {inputs : Nat}
    {rules : List StaticRule} (h : ofRegistersFrom inputs rs = .ok rules) {i : Nat}
    {rule : StaticRule} (hi : rules[i]? = some rule) :
    ∃ register secret, rs[i]? = some (register, secret)
      ∧ RuleOf (inputs + ((rs.map Prod.fst).take i).countP fun r => r.input?.isSome) secret rule
        register := by
  induction rs generalizing inputs rules i with
  | nil =>
    obtain rfl := Except.ok.inj h
    cases hi
  | cons r rs ih =>
    obtain ⟨register, secret⟩ := r
    -- Past the first register the count of inputs has grown by one if that was an input.
    have hstep {first : StaticRule} {n : Nat} {rest : List StaticRule}
        (hn : n = inputs + if register.input?.isSome then 1 else 0)
        (hrest : ofRegistersFrom n rs = .ok rest) (hrules : rules = first :: rest)
        (hfirst : RuleOf inputs secret first register) :
        ∃ register' secret', ((register, secret) :: rs)[i]? = some (register', secret')
          ∧ RuleOf (inputs + ((((register, secret) :: rs).map Prod.fst).take i).countP
              fun r => r.input?.isSome) secret' rule register' := by
      subst hrules
      cases i with
      | zero =>
        obtain rfl := Option.some.inj hi
        exact ⟨register, secret, rfl, hfirst⟩
      | succ i =>
        obtain ⟨register', secret', hreg, hrule⟩ := ih hrest hi
        refine ⟨register', secret', hreg, ?_⟩
        rw [hn] at hrule
        rw [List.map_cons, List.take_succ_cons, List.countP_cons, Nat.add_comm (List.countP _ _),
          ← Nat.add_assoc]
        exact hrule
    cases register with
    | input r =>
      obtain ⟨rest, hrest, h⟩ := bind_eq_ok.1 h
      exact hstep rfl hrest (Except.ok.inj h).symm rfl
    | cycle source =>
      obtain ⟨c, hc, h⟩ := bind_eq_ok.1 h
      obtain ⟨rest, hrest, h⟩ := bind_eq_ok.1 h
      exact hstep rfl hrest (Except.ok.inj h).symm ⟨c, hc, rfl⟩
    | mask source value =>
      obtain ⟨v, hv, h⟩ := bind_eq_ok.1 h
      obtain ⟨rest, hrest, h⟩ := bind_eq_ok.1 h
      exact hstep rfl hrest (Except.ok.inj h).symm ⟨v, hv, rfl⟩

/-- Rules that fit together, and the slots of the input registers. -/
structure Formed (slots : List InputSlot) (rules : List StaticRule) : Prop where
  input : ∀ {i position : Nat} {secret : Bool}, rules[i]? = some (.input position secret) →
    ∃ slot, slots[position]? = some slot ∧ slot.secret = secret
  cycle : ∀ {c : CyclicColumn}, .cycle c ∈ rules → c.Periodic
  mask : ∀ {i source : Nat} {value : Element} {secret : Bool},
    rules[i]? = some (.mask source value secret) →
    source < i ∧ ∃ rule, rules[source]? = some rule ∧ rule.isSecret = secret

section OfRegisters

variable {set : RegisterSet} {rules : List StaticRule}

theorem ofRegisters_getElem? (h : ofRegisters set = .ok rules) {i : Nat} {rule : StaticRule}
    (hi : rules[i]? = some rule) :
    ∃ register secret, set.registers[i]? = some register ∧ set.secrecy[i]? = some secret
      ∧ RuleOf ((set.registers.take i).countP fun r => r.input?.isSome) secret rule register := by
  obtain ⟨register, secret, hpair, hrule⟩ := ofRegistersFrom_getElem? h hi
  obtain ⟨hregister, hsecret⟩ := List.getElem?_zip_eq_some.1 hpair
  have hlen : set.registers.length ≤ set.secrecy.length := set.length_secrecy.ge
  rw [List.map_fst_zip hlen, Nat.zero_add] at hrule
  exact ⟨register, secret, hregister, hsecret, hrule⟩

/-- Rules are as secret as their registers. -/
theorem map_isSecret (h : ofRegisters set = .ok rules) (hlen : rules.length = set.size) :
    rules.map isSecret = set.secrecy := by
  refine List.ext_getElem? fun i => ?_
  rw [List.getElem?_map]
  cases hi : rules[i]? with
  | none =>
    have hout : rules.length ≤ i := List.getElem?_eq_none_iff.1 hi
    have hnone : set.secrecy[i]? = none := by
      rw [List.getElem?_eq_none_iff, set.length_secrecy]
      omega
    rw [hnone, Option.map_none]
  | some rule =>
    obtain ⟨register, secret, hregister, hsecret, hrule⟩ := ofRegisters_getElem? h hi
    rw [hsecret, Option.map_some]
    cases register with
    | input r =>
      obtain rfl := hrule
      rfl
    | cycle source =>
      obtain ⟨c, -, rfl⟩ := hrule
      rw [RegisterSet.secrecy_eq, getElem?_grow _ hregister] at hsecret
      exact hsecret
    | mask source value =>
      obtain ⟨v, -, rfl⟩ := hrule
      rfl

/-- The rules of an admissible set of registers fit together. -/
theorem ofRegisters_formed (hset : set.Admissible Word.modulus) (h : ofRegisters set = .ok rules)
    (hlen : rules.length = set.size) : Formed (InputSlot.ofRegisters set) rules where
  input {i position secret} hi := by
    obtain ⟨register, flag, hregister, hflag, hrule⟩ := ofRegisters_getElem? h hi
    cases register with
    | input r =>
      obtain ⟨rfl, rfl⟩ := StaticRule.input.inj hrule
      obtain ⟨slot, hslot, hsecret⟩ := InputSlot.getElem?_ofRegisters hregister
      rw [RegisterSet.secrecy_eq, getElem?_grow _ hregister] at hflag
      exact ⟨slot, hslot, hsecret.trans (Option.some.inj hflag)⟩
    | cycle source =>
      obtain ⟨c, -, hc⟩ := hrule
      cases hc
    | mask source value =>
      obtain ⟨v, -, hv⟩ := hrule
      cases hv
  cycle {c} hc := by
    obtain ⟨i, hi⟩ := List.getElem?_of_mem hc
    obtain ⟨register, flag, hregister, -, hrule⟩ := ofRegisters_getElem? h hi
    cases register with
    | input r => cases hrule
    | cycle source =>
      obtain ⟨c', hc', hrule⟩ := hrule
      obtain rfl := StaticRule.cycle.inj hrule
      exact CyclicColumn.ofSource_periodic hc' (hset hregister).1
    | mask source value =>
      obtain ⟨v, -, hv⟩ := hrule
      cases hv
  mask {i source value secret} hi := by
    obtain ⟨register, flag, hregister, hflag, hrule⟩ := ofRegisters_getElem? h hi
    cases register with
    | input r => cases hrule
    | cycle source =>
      obtain ⟨c, -, hc⟩ := hrule
      cases hc
    | mask source' value' =>
      obtain ⟨v, -, hrule⟩ := hrule
      obtain ⟨rfl, -, rfl⟩ := StaticRule.mask.inj hrule
      have hlt : source < i := (hset hregister).1
      have hin : source < rules.length := hlt.trans (List.getElem?_eq_some_iff.1 hi).1
      refine ⟨hlt, rules[source], List.getElem?_eq_getElem hin, ?_⟩
      have hsource : set.secrecy[source]? = some rules[source].isSecret := by
        rw [← map_isSecret h hlen, List.getElem?_map, List.getElem?_eq_getElem hin, Option.map_some]
      -- A mask takes the flag of its source among the flags before it.
      rw [RegisterSet.secrecy_eq, getElem?_grow _ hregister, RegisterSet.flag,
        List.getD_eq_getElem?_getD, getElem?_grow_take _ hlt, ← RegisterSet.secrecy_eq,
        hsource] at hflag
      exact Option.some.inj hflag

end OfRegisters

/-! ## Columns -/

theorem columns_eq (rules : List StaticRule) (inputs : List (Option (List Element)))
    (length : Nat) :
    columns rules inputs length =
      grow (fun earlier r => r.column inputs length earlier) rules := rfl

theorem length_columns (rules : List StaticRule) (inputs : List (Option (List Element)))
    (length : Nat) : (columns rules inputs length).length = rules.length := by
  rw [columns_eq, length_grow]

/-- All columns are as long as the trace if those of the inputs are. -/
theorem length_of_mem_columns {rules : List StaticRule} {inputs : List (Option (List Element))}
    {length : Nat} (hinputs : ∀ c, some c ∈ inputs → c.length = length) :
    ∀ c, some c ∈ columns rules inputs length → c.length = length := by
  induction rules using List.reverseRecOn with
  | nil => exact fun c hc => (by cases hc)
  | append_singleton rules r ih =>
    intro c hc
    rw [columns_eq, grow_append, List.mem_append, ← columns_eq, List.mem_singleton] at hc
    rcases hc with hc | hc
    · exact ih c hc
    cases r with
    | input position secret =>
      have hget : inputs[position]? = some (some c) := by
        rw [column, List.getD_eq_getElem?_getD] at hc
        cases hp : inputs[position]? with
        | none => rw [hp] at hc; cases hc
        | some y => rw [hp] at hc; rw [hc]; rfl
      exact hinputs c (List.mem_of_getElem? hget)
    | cycle cy =>
      obtain rfl := Option.some.inj hc
      exact cy.length_column length
    | mask source value secret =>
      obtain ⟨c', hc', rfl⟩ := Option.map_eq_some_iff.1 hc.symm
      rw [List.getD_eq_getElem?_getD] at hc'
      cases hs : (columns rules inputs length)[source]? with
      | none => rw [hs] at hc'; cases hc'
      | some y =>
        rw [hs, Option.getD_some] at hc'
        rw [maskColumn, List.length_map]
        exact ih c' (List.mem_of_getElem? (hs.trans (congrArg some hc')))

/-- Public columns are made from public inputs. -/
theorem columns_agree {slots : List InputSlot} {rules : List StaticRule} (h : Formed slots rules)
    {inputs inputs' : List (Option (List Element))} (length : Nat)
    (hinputs : ∀ {position : Nat} {slot : InputSlot}, slots[position]? = some slot →
      slot.secret = false → inputs[position]? = inputs'[position]?) {i : Nat} {rule : StaticRule}
    (hi : rules[i]? = some rule) (hpublic : rule.isSecret = false) :
    (columns rules inputs length)[i]? = (columns rules inputs' length)[i]? := by
  induction i using Nat.strong_induction_on generalizing rule with
  | _ i ih =>
    rw [columns_eq, columns_eq, getElem?_grow _ hi, getElem?_grow _ hi]
    congr 1
    cases rule with
    | input position secret =>
      obtain ⟨slot, hslot, hsecret⟩ := h.input hi
      rw [column, column, List.getD_eq_getElem?_getD, List.getD_eq_getElem?_getD,
        hinputs hslot (hsecret.trans hpublic)]
    | cycle c => rfl
    | mask source value secret =>
      obtain ⟨hlt, source', hsource, hsecret⟩ := h.mask hi
      have hrec := ih source hlt hsource (hsecret.trans hpublic)
      rw [columns_eq, columns_eq] at hrec
      rw [column, column, List.getD_eq_getElem?_getD, List.getD_eq_getElem?_getD,
        getElem?_grow_take _ hlt, getElem?_grow_take _ hlt, hrec]

/-! ## The longest period -/

/-- The period of a cycle; `0` for other rules. -/
def ownPeriod : StaticRule → Nat
  | .cycle c => c.period
  | _ => 0

theorem Formed.period_dvd {slots : List InputSlot} {rules : List StaticRule}
    (h : Formed slots rules) {c : CyclicColumn} (hc : .cycle c ∈ rules) :
    0 < maxPeriod rules ∧ c.period ∣ maxPeriod rules := by
  refine (dvd_foldl_max_of_two_pow (f := ownPeriod) (fun longest r => ?_) fun r hr => ?_).2 _ hc ?_
  · cases r with
    | cycle c => rfl
    | input position secret => exact (Nat.max_eq_left (Nat.zero_le _)).symm
    | mask source value secret => exact (Nat.max_eq_left (Nat.zero_le _)).symm
  · cases r with
    | input position secret => exact .inl rfl
    | mask source value secret => exact .inl rfl
    | cycle c => exact .inr (isPowerOfTwo_iff.1 (h.cycle hr).1)
  · obtain ⟨k, hk⟩ := isPowerOfTwo_iff.1 (h.cycle hc).1
    rw [ownPeriod, hk]
    positivity

end StaticRule

/-- The static rules of a machine fit together, and its secret registers are those with secret
rules. -/
theorem Machine.statics_formed {text : List Char} {o : CompileOptions} {s : Schema}
    (hs : compile text o = .ok s) {mo : MachineOptions} {m : Machine} (hm : ofSchema s mo = .ok m) :
    StaticRule.Formed m.inputs m.statics
      ∧ m.secrets = ((m.statics.map StaticRule.isSecret).zipIdx.filter Prod.fst).map Prod.snd := by
  have hshaped := compile_wellShaped hs
  obtain ⟨hfield, rules, ext, hrules, -, rfl⟩ := ofSchema_eq_ok hm
  have hlen := length_statics hshaped hfield hrules
  refine ⟨StaticRule.ofRegisters_formed (hfield ▸ hshaped.admissible) hrules hlen, ?_⟩
  change s.registers.secrets = ((rules.map StaticRule.isSecret).zipIdx.filter _).map _
  rw [StaticRule.map_isSecret hrules hlen]
  rfl

end Arithmetization
