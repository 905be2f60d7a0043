import Arithmetization.Proofs.Clauses

/-!
Declarations of registers.

`RegisterBuilder.Allows b r` says that the register `r` may be declared after those in `b`; it is
exactly what the builder checks. A declaration is accepted exactly if it is written in one of a few
ways (`Grammar.register_eq_ok`), and it then adds a register that was allowed
(`Grammar.register_allows`). So every register of a set was allowed after those before it
(`RegisterBuilder.InOrder`), and what is known of a register that was allowed is known of all of
them.
-/

set_option autoImplicit false

namespace Arithmetization

/-! ## What a builder checks -/

namespace CycleSource

/-- The written numbers of a cycle are below a modulus. -/
def Below (modulus : Nat) : CycleSource → Prop
  | .values vs => ∀ v ∈ vs, v < modulus
  | .prng _ _ => True
  | .power base _ => base < modulus

end CycleSource

/-- A register that may be declared after `earlier` others: a cycle has a power of two of values, a
mask an earlier source, and all written numbers are below the modulus. -/
def Register.Admissible (modulus earlier : Nat) : Register → Prop
  | .input _ => True
  | .cycle source => isPowerOfTwo source.period = true ∧ source.Below modulus
  | .mask source value => source < earlier ∧ value < modulus

/-- Every register was admissible where it was declared. -/
def RegisterSet.Admissible (modulus : Nat) (set : RegisterSet) : Prop :=
  ∀ {i : Nat} {r : Register}, set.registers[i]? = some r → r.Admissible modulus i

namespace RegisterBuilder

/-- The register may be declared after those in the builder. -/
def Allows (b : RegisterBuilder) : Register → Prop
  | .input r =>
    b.rank r.parent = .ok r.rank ∧ (r.scalar = true → r.parent = none)
      ∧ ∀ n ∈ r.steps, isPowerOfTwo n = true
  | .cycle source => b.outside? source = none ∧ isPowerOfTwo source.period = true
  | .mask source value => source < b.registers.length ∧ value < b.modulus

variable {b b' : RegisterBuilder}

theorem outside?_eq_none {source : CycleSource} (h : b.outside? source = none) :
    source.Below b.modulus := by
  cases source with
  | values vs =>
    intro v hv
    simp only [outside?, Option.map_eq_none_iff, List.find?_eq_none, decide_eq_true_eq] at h
    exact Nat.not_le.1 (h v hv)
  | prng seed count => trivial
  | power base count =>
    simp only [outside?, ite_eq_right_iff] at h
    exact Nat.not_le.1 fun hle => by cases h hle

theorem Allows.admissible {r : Register} (h : b.Allows r) :
    r.Admissible b.modulus b.registers.length := by
  cases r with
  | input r => trivial
  | cycle source => exact ⟨h.2, outside?_eq_none h.1⟩
  | mask source value => exact h

theorem input_eq_ok {secret binary scalar : Bool} {parent steps : Option Nat} :
    b.input secret binary scalar parent steps = .ok b' ↔
      ∃ rank, b.Allows (.input ⟨secret, binary, scalar, rank, parent, steps⟩)
        ∧ b' = b.push (.input ⟨secret, binary, scalar, rank, parent, steps⟩) := by
  unfold input
  rw [bind_eq_ok]
  refine exists_congr fun rank => ?_
  simp only [Allows, and_assoc]
  refine and_congr_right fun _ => ?_
  by_cases hscalar : scalar = true ∧ parent ≠ none
  · -- one value and a parent exclude each other
    obtain ⟨rfl, hparent⟩ := hscalar
    obtain ⟨p, rfl⟩ := Option.ne_none_iff_exists'.1 hparent
    exact ⟨fun h => (by cases h), fun h => absurd (h.1 rfl) hparent⟩
  · have hcond : (scalar && parent.isSome) = false := by
      cases scalar <;> cases parent <;> simp_all
    have hnone : scalar = true → parent = none := fun hs => by
      by_contra hp
      exact hscalar ⟨hs, hp⟩
    rw [hcond]
    cases steps with
    | none =>
      exact ⟨fun h => ⟨hnone, by simp, (Except.ok.inj h).symm⟩, fun h => by rw [h.2.2]; rfl⟩
    | some n =>
      by_cases hn : isPowerOfTwo n = true
      · simp only [hn, Bool.not_true]
        exact ⟨fun h => ⟨hnone, by simpa using hn, (Except.ok.inj h).symm⟩,
          fun h => by rw [h.2.2]; rfl⟩
      · simp only [eq_false_of_ne_true hn, Bool.not_false]
        exact ⟨fun h => (by cases h), fun h => absurd (h.2.1 n rfl) hn⟩

theorem cycle_eq_ok {source : CycleSource} :
    b.cycle source = .ok b' ↔ b.Allows (.cycle source) ∧ b' = b.push (.cycle source) := by
  have hallows : b.Allows (.cycle source) ↔
      b.outside? source = none ∧ isPowerOfTwo source.period = true := Iff.rfl
  rw [hallows, cycle]
  cases houtside : b.outside? source with
  | some cause => exact ⟨fun h => (by cases h), fun h => (by cases h.1.1)⟩
  | none =>
    dsimp only
    by_cases hperiod : isPowerOfTwo source.period = true
    · rw [if_pos hperiod]
      exact ⟨fun h => ⟨⟨rfl, hperiod⟩, (Except.ok.inj h).symm⟩, fun h => congrArg _ h.2.symm⟩
    · rw [if_neg hperiod]
      exact ⟨fun h => (by cases h), fun h => absurd h.1.2 hperiod⟩

theorem mask_eq_ok {source value : Nat} :
    b.mask source value = .ok b' ↔
      b.Allows (.mask source value) ∧ b' = b.push (.mask source value) := by
  unfold mask Allows
  by_cases hsource : b.registers.length ≤ source
  · rw [if_pos hsource]
    exact ⟨fun h => (by cases h), fun h => absurd h.1.1 (Nat.not_lt.2 hsource)⟩
  by_cases hvalue : b.modulus ≤ value
  · rw [if_neg hsource, if_pos hvalue]
    exact ⟨fun h => (by cases h), fun h => absurd h.1.2 (Nat.not_lt.2 hvalue)⟩
  · rw [if_neg hsource, if_neg hvalue]
    exact ⟨fun h => ⟨⟨Nat.not_le.1 hsource, Nat.not_le.1 hvalue⟩, (Except.ok.inj h).symm⟩,
      fun h => congrArg _ h.2.symm⟩

theorem eq_of_build {set : RegisterSet} (h : b.build = .ok set) : set = ⟨b.registers⟩ := by
  unfold build at h
  dsimp only at h
  split at h
  · exact (Except.ok.inj h).symm
  · cases h

/-- Every register was allowed after those before it. -/
def InOrder (b : RegisterBuilder) : Prop :=
  ∀ (i : Nat) (r : Register), b.registers[i]? = some r →
    (RegisterBuilder.mk b.modulus (b.registers.take i)).Allows r

theorem inOrder_empty (modulus : Nat) : (empty modulus).InOrder :=
  fun _ _ h => (by cases h)

theorem InOrder.push (h : b.InOrder) {r : Register} (hr : b.Allows r) :
    (b.push r).InOrder := by
  intro i r' hi
  change (b.registers ++ [r])[i]? = some r' at hi
  change (RegisterBuilder.mk b.modulus ((b.registers ++ [r]).take i)).Allows r'
  rcases getElem?_concat_eq_some hi with hi | ⟨rfl, rfl⟩
  · have hlt : i < b.registers.length := (List.getElem?_eq_some_iff.1 hi).1
    rw [List.take_append_of_le_length hlt.le]
    exact h i r' hi
  · rw [List.take_left]
    exact hr

/-- What was allowed after the registers before it is admissible there. -/
theorem InOrder.admissible (h : b.InOrder) : RegisterSet.Admissible b.modulus ⟨b.registers⟩ := by
  intro i r hr
  have hadm := (h i r hr).admissible
  have hlt : i < b.registers.length := (List.getElem?_eq_some_iff.1 hr).1
  rwa [List.length_take_of_le hlt.le] at hadm

end RegisterBuilder

/-- The number of static registers, if there are any. -/
def RegisterSet.row? (set : RegisterSet) : Option Nat :=
  if set.size = 0 then none else some set.size

namespace Grammar

open Form

/-! ## How declarations are written -/

/-- How a binding is written. -/
inductive Binding : Sexp → Bool × Option Nat → Prop
  | vector : Binding (.sym "vector") (false, none)
  | scalar : Binding (.sym "scalar") (true, none)
  | parent {i : Nat} (hi : i < indexBound) :
      Binding (.list [.sym "parent", .int i]) (false, some i)

/-- How a pattern is written. -/
inductive Pattern : Sexp → Option Nat → Prop
  | filled : Pattern (.sym "filled") none
  | number {n : Nat} (hn : n < indexBound) : Pattern (.int n) (some n)
  | steps {n : Nat} (hn : n < indexBound) : Pattern (.list [.sym "steps", .int n]) (some n)

/-- How the values of a cycle are written. -/
inductive Cycle : List Sexp → CycleSource → Prop
  | prng {seed : List UInt8} {count : Nat} (hcount : count < indexBound) :
      Cycle [.list [.sym "prng", .sym "blake3", .hex seed, .int count]] (.prng seed count)
  | power {base count : Nat} (hcount : count < indexBound) :
      Cycle [.list [.sym "power", .int base, .int count]] (.power base count)
  | values {v : Nat} {vs : List Nat} : Cycle ((v :: vs).map .int) (.values (v :: vs))

/-- How a register is declared, and the registers after it. -/
inductive Declaration (b : RegisterBuilder) : Sexp → RegisterBuilder → Prop
  | input {secret binary scalar : Bool} {parent steps : Option Nat} {x y : Sexp}
      {b' : RegisterBuilder} (hx : Binding x (scalar, parent)) (hy : Pattern y steps)
      (hb : b.input secret binary scalar parent steps = .ok b') :
      Declaration b (.list (.sym "input" :: .sym (if secret then "secret" else "public")
        :: ((if binary then [.sym "binary"] else []) ++ [x, y]))) b'
  | cycle {xs : List Sexp} {source : CycleSource} {b' : RegisterBuilder} (hxs : Cycle xs source)
      (hb : b.cycle source = .ok b') : Declaration b (.list (.sym "cycle" :: xs)) b'
  | mask {source value : Nat} {b' : RegisterBuilder} (hsource : source < indexBound)
      (hvalue : value < b.modulus) (hb : b.mask source value = .ok b') :
      Declaration b (.list [.sym "mask", .int source, .int value]) b'

theorem Binding.ne_binary {x : Sexp} {r : Bool × Option Nat} (h : Binding x r) :
    x ≠ .sym "binary" := by
  cases h <;> simp

theorem Binding.parent_lt {x : Sexp} {r : Bool × Option Nat} (h : Binding x r) :
    ∀ p ∈ r.2, p < indexBound := by
  cases h with
  | parent hi => simpa using hi
  | _ => simp

theorem Pattern.steps_lt {x : Sexp} {steps : Option Nat} (h : Pattern x steps) :
    ∀ n ∈ steps, n < indexBound := by
  cases h with
  | filled => simp
  | number hn => simpa using hn
  | steps hn => simpa using hn

theorem binding_eq_ok {f : Form} {r : Bool × Option Nat} :
    binding f = .ok r ↔ Binding f.bare r := by
  constructor
  · intro h
    unfold binding at h
    split at h
    · cases h
      exact .vector
    · cases h
      exact .scalar
    · next p i pos =>
      obtain ⟨n, hn, h⟩ := bind_eq_ok.1 h
      obtain ⟨hi, hlt⟩ := index_eq_ok.1 hn
      cases h
      rw [bare_list, List.map_cons, List.map_singleton, hi]
      exact .parent hlt
    · cases h
  · intro h
    generalize hx : f.bare = x at h
    cases h with
    | vector =>
      obtain ⟨pos, rfl⟩ := bare_eq_sym.1 hx
      rfl
    | scalar =>
      obtain ⟨pos, rfl⟩ := bare_eq_sym.1 hx
      rfl
    | parent hi =>
      obtain ⟨q, args, pos, rfl, hargs⟩ := bare_eq_clause.1 hx
      obtain ⟨g, rfl, hg⟩ := List.map_eq_singleton_iff.1 hargs
      rw [binding, index_eq_ok.2 ⟨hg, hi⟩]
      rfl

theorem stepCount_eq_ok {pos : Position} {n : Nat} {steps : Option Nat} :
    stepCount pos n = .ok steps ↔ n < indexBound ∧ steps = some n := by
  unfold stepCount
  split
  · next hlt => simp [hlt, eq_comm]
  · next hge => simp [hge]

theorem pattern_eq_ok {f : Form} {steps : Option Nat} :
    pattern f = .ok steps ↔ Pattern f.bare steps := by
  constructor
  · intro h
    unfold pattern at h
    split at h
    · cases h
      exact .filled
    · obtain ⟨hlt, rfl⟩ := stepCount_eq_ok.1 h
      exact .number hlt
    · next p i pos =>
      obtain ⟨n, hn, h⟩ := bind_eq_ok.1 h
      obtain ⟨hlt, rfl⟩ := stepCount_eq_ok.1 h
      rw [bare_list, List.map_cons, List.map_singleton, int_eq_ok.1 hn]
      exact .steps hlt
    · cases h
  · intro h
    generalize hx : f.bare = x at h
    cases h with
    | filled =>
      obtain ⟨pos, rfl⟩ := bare_eq_sym.1 hx
      rfl
    | number hn =>
      obtain ⟨pos, rfl⟩ := bare_eq_int.1 hx
      exact stepCount_eq_ok.2 ⟨hn, rfl⟩
    | steps hn =>
      obtain ⟨q, args, pos, rfl, hargs⟩ := bare_eq_clause.1 hx
      obtain ⟨g, rfl, hg⟩ := List.map_eq_singleton_iff.1 hargs
      rw [pattern, int_eq_ok.2 hg]
      exact stepCount_eq_ok.2 ⟨hn, rfl⟩

theorem mapM_int_eq_ok {expected : Expected} {fs : List Form} {xs : List Nat} :
    fs.mapM (int expected) = .ok xs ↔ fs.map bare = xs.map .int := by
  rw [mapM_eq_ok_of_written (P := fun _ => True) fun _ _ => by rw [int_eq_ok, and_true]]
  simp

theorem cycleSource_eq_ok {pos : Position} {fs : List Form} {source : CycleSource} :
    cycleSource pos fs = .ok source ↔ Cycle (fs.map bare) source := by
  constructor
  · intro h
    unfold cycleSource at h
    split at h
    · split at h
      · next p gpos p₁ seed p₂ countForm =>
        obtain ⟨count, hcount, h⟩ := bind_eq_ok.1 h
        obtain ⟨hbare, hlt⟩ := index_eq_ok.1 hcount
        cases h
        rw [List.map_singleton, bare_list]
        simp only [List.map_cons, List.map_nil, hbare]
        exact .prng hlt
      · cases h
    · split at h
      · obtain ⟨base, hbase, h⟩ := bind_eq_ok.1 h
        obtain ⟨count, hcount, h⟩ := bind_eq_ok.1 h
        obtain ⟨hbare, hlt⟩ := index_eq_ok.1 hcount
        cases h
        rw [List.map_singleton, bare_list]
        simp only [List.map_cons, List.map_nil, hbare, int_eq_ok.1 hbase]
        exact .power hlt
      · cases h
    · cases h
    · next hne =>
      -- values are what is no clause, so there is at least one
      obtain ⟨values, hvalues, h⟩ := bind_eq_ok.1 h
      cases h
      have hbare := mapM_int_eq_ok.1 hvalues
      cases values with
      | nil => exact absurd (List.map_eq_nil_iff.1 hbare) hne
      | cons v vs =>
        rw [hbare]
        exact .values
  · intro h
    generalize hxs : fs.map bare = xs at h
    cases h with
    | prng hcount =>
      obtain ⟨f, rfl, hf⟩ := List.map_eq_singleton_iff.1 hxs
      obtain ⟨p, args, gpos, rfl, hargs⟩ := bare_eq_clause.1 hf
      obtain ⟨g₁, rest₁, rfl, hg₁, hrest₁⟩ := List.map_eq_cons_iff.1 hargs
      obtain ⟨g₂, rest₂, rfl, hg₂, hrest₂⟩ := List.map_eq_cons_iff.1 hrest₁
      obtain ⟨g₃, rfl, hg₃⟩ := List.map_eq_singleton_iff.1 hrest₂
      obtain ⟨p₁, rfl⟩ := bare_eq_sym.1 hg₁
      obtain ⟨p₂, rfl⟩ := bare_eq_hex.1 hg₂
      rw [cycleSource, index_eq_ok.2 ⟨hg₃, hcount⟩]
      rfl
    | power hcount =>
      obtain ⟨f, rfl, hf⟩ := List.map_eq_singleton_iff.1 hxs
      obtain ⟨p, args, gpos, rfl, hargs⟩ := bare_eq_clause.1 hf
      obtain ⟨g₁, rest₁, rfl, hg₁, hrest₁⟩ := List.map_eq_cons_iff.1 hargs
      obtain ⟨g₂, rfl, hg₂⟩ := List.map_eq_singleton_iff.1 hrest₁
      rw [cycleSource, int_eq_ok.2 hg₁, index_eq_ok.2 ⟨hg₂, hcount⟩]
      rfl
    | values =>
      have hvalues : fs.mapM (int .cycleValue) = .ok _ := mapM_int_eq_ok.2 hxs
      obtain ⟨f, rest, rfl, hf, -⟩ := List.map_eq_cons_iff.1 hxs
      obtain ⟨p, rfl⟩ := bare_eq_int.1 hf
      rw [cycleSource, hvalues]
      · rfl
      all_goals simp

theorem visibility_eq_ok {f : Form} {secret : Bool} :
    visibility f = .ok secret ↔ f.bare = .sym (if secret then "secret" else "public") := by
  constructor
  · intro h
    unfold visibility at h
    cases f with
    | sym name pos =>
      split at h
      · next hname =>
        obtain rfl := Option.some.inj hname
        cases h
        rfl
      · next hname =>
        obtain rfl := Option.some.inj hname
        cases h
        rfl
      · cases h
    | _ => cases h
  · intro h
    obtain ⟨pos, rfl⟩ := bare_eq_sym.1 h
    cases secret <;> rfl

/-- The word `binary` stands in front of the rest or not at all. -/
theorem map_bare_binaryFlag (fs : List Form) :
    fs.map bare
      = (if (binaryFlag fs).1 then [.sym "binary"] else []) ++ (binaryFlag fs).2.map bare := by
  unfold binaryFlag
  split <;> rfl

theorem binaryFlag_append {binary : Bool} {flag rest : List Form} {f : Form}
    (hflag : flag.map bare = if binary then [.sym "binary"] else [])
    (hf : f.bare ≠ .sym "binary") : binaryFlag (flag ++ f :: rest) = (binary, f :: rest) := by
  cases binary with
  | true =>
    obtain ⟨g, rfl, hg⟩ := List.map_eq_singleton_iff.1 hflag
    obtain ⟨p, rfl⟩ := bare_eq_sym.1 hg
    rfl
  | false =>
    obtain rfl := List.map_eq_nil_iff.1 hflag
    rw [List.nil_append, binaryFlag]
    intro p rest' heq
    obtain ⟨rfl, -⟩ := List.cons.inj heq
    exact hf rfl

theorem declared_eq_ok {pos : Position} {x : Except RegisterFault RegisterBuilder}
    {b : RegisterBuilder} : declared pos x = .ok b ↔ x = .ok b := by
  cases x with
  | error f => exact ⟨fun h => (by cases h), fun h => (by cases h)⟩
  | ok y => rw [declared, Except.ok.injEq, Except.ok.injEq]

/-- **A declaration is accepted exactly as it is written**, where the register may be declared. -/
theorem register_eq_ok {b b' : RegisterBuilder} {f : Form} :
    register b f = .ok b' ↔ Declaration b f.bare b' := by
  constructor
  · intro h
    unfold register at h
    split at h
    · cases h
    · next v rest hhead hoperands =>
      obtain ⟨p, args, pos, rfl⟩ := head?_eq_some.1 hhead
      obtain rfl : args = v :: rest := hoperands
      obtain ⟨secret, hsecret, h⟩ := bind_eq_ok.1 h
      dsimp only at h
      split at h
      · next bind pat hrest =>
        obtain ⟨⟨scalar, parent⟩, hbind, h⟩ := bind_eq_ok.1 h
        obtain ⟨steps, hpattern, h⟩ := bind_eq_ok.1 h
        rw [bare_list, List.map_cons, List.map_cons, visibility_eq_ok.1 hsecret,
          map_bare_binaryFlag rest, hrest]
        exact .input (binding_eq_ok.1 hbind) (pattern_eq_ok.1 hpattern) (declared_eq_ok.1 h)
      · cases h
    · next hhead =>
      obtain ⟨p, args, pos, rfl⟩ := head?_eq_some.1 hhead
      obtain ⟨source, hsource, h⟩ := bind_eq_ok.1 h
      rw [bare_list, List.map_cons]
      exact .cycle (cycleSource_eq_ok.1 hsource) (declared_eq_ok.1 h)
    · next s v hhead hoperands =>
      obtain ⟨p, args, pos, rfl⟩ := head?_eq_some.1 hhead
      obtain rfl : args = [s, v] := hoperands
      obtain ⟨source, hsource, h⟩ := bind_eq_ok.1 h
      obtain ⟨value, hvalue, h⟩ := bind_eq_ok.1 h
      obtain ⟨hs, hslt⟩ := index_eq_ok.1 hsource
      obtain ⟨hv, hvlt⟩ := element_eq_ok.1 hvalue
      rw [bare_list, List.map_cons, List.map_cons, List.map_singleton, hs, hv]
      exact .mask hslt hvlt (declared_eq_ok.1 h)
    · cases h
    · cases h
  · intro h
    generalize hx : f.bare = x at h
    cases h with
    | @input secret binary scalar parent steps x y _ hbind hpattern hb =>
      obtain ⟨p, args, pos, rfl, hargs⟩ := bare_eq_clause.1 hx
      obtain ⟨v, rest, rfl, hv, hrest⟩ := List.map_eq_cons_iff.1 hargs
      obtain ⟨flag, last, rfl, hflag, hlast⟩ := List.map_eq_append_iff.1 hrest
      obtain ⟨bind, last, rfl, rfl, hpat⟩ := List.map_eq_cons_iff.1 hlast
      obtain ⟨pat, rfl, rfl⟩ := List.map_eq_singleton_iff.1 hpat
      refine bind_eq_ok.2 ⟨secret, visibility_eq_ok.2 hv, ?_⟩
      -- the flag may be missing, and no binding is taken for it
      rw [binaryFlag_append hflag hbind.ne_binary]
      refine bind_eq_ok.2 ⟨_, binding_eq_ok.2 hbind, ?_⟩
      exact bind_eq_ok.2 ⟨_, pattern_eq_ok.2 hpattern, declared_eq_ok.2 hb⟩
    | cycle hxs hb =>
      obtain ⟨p, args, pos, rfl, rfl⟩ := bare_eq_clause.1 hx
      exact bind_eq_ok.2 ⟨_, cycleSource_eq_ok.2 hxs, declared_eq_ok.2 hb⟩
    | mask hsource hvalue hb =>
      obtain ⟨p, args, pos, rfl, hargs⟩ := bare_eq_clause.1 hx
      obtain ⟨g₁, rest₁, rfl, hg₁, hrest₁⟩ := List.map_eq_cons_iff.1 hargs
      obtain ⟨g₂, rfl, hg₂⟩ := List.map_eq_singleton_iff.1 hrest₁
      refine bind_eq_ok.2 ⟨_, index_eq_ok.2 ⟨hg₁, hsource⟩, ?_⟩
      exact bind_eq_ok.2 ⟨_, element_eq_ok.2 ⟨hg₂, hvalue⟩, declared_eq_ok.2 hb⟩

/-! ## Sections of registers -/

/-- **A declaration that is accepted** adds a register that may be declared. -/
theorem register_allows {b b' : RegisterBuilder} {f : Form} (h : register b f = .ok b') :
    ∃ r, b.Allows r ∧ b' = b.push r := by
  have hdeclaration := register_eq_ok.1 h
  generalize f.bare = x at hdeclaration
  cases hdeclaration with
  | input _ _ hb =>
    obtain ⟨rank, hallows⟩ := RegisterBuilder.input_eq_ok.1 hb
    exact ⟨_, hallows⟩
  | cycle _ hb => exact ⟨_, RegisterBuilder.cycle_eq_ok.1 hb⟩
  | mask _ _ hb => exact ⟨_, RegisterBuilder.mask_eq_ok.1 hb⟩

/-- Declarations one after the other: one register for each. -/
theorem Runs.registers_inOrder {fs : List Form} {b b' : RegisterBuilder}
    (h : Runs (fun b f b' => register b f = .ok b') b fs b') :
    b'.modulus = b.modulus ∧ b'.registers.length = b.registers.length + fs.length
      ∧ (b.InOrder → b'.InOrder) := by
  induction h with
  | nil b => exact ⟨rfl, rfl, id⟩
  | cons h _ ih =>
    obtain ⟨r, hallows, rfl⟩ := register_allows h
    obtain ⟨hmodulus, hlength, horder⟩ := ih
    refine ⟨hmodulus, ?_, fun hb => horder (hb.push hallows)⟩
    rw [hlength, RegisterBuilder.push, List.length_append, List.length_singleton, List.length_cons]
    omega

theorem registers_admissible {modulus : Nat} {s : Form} {set : RegisterSet}
    (h : registers modulus s = .ok set) :
    set.size = s.operands.length ∧ set.Admissible modulus := by
  obtain ⟨b, hbuild, hrun⟩ := registers_eq_ok.1 h
  obtain ⟨hmodulus, hlength, horder⟩ := hrun.registers_inOrder
  obtain rfl := RegisterBuilder.eq_of_build hbuild
  have hmodulus : b.modulus = modulus := hmodulus
  subst hmodulus
  exact ⟨hlength.trans (Nat.zero_add _), (horder (RegisterBuilder.inOrder_empty _)).admissible⟩

end Grammar

end Arithmetization
