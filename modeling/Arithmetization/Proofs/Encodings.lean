import Arithmetization.Field.Bytes
import Mathlib.Data.Nat.Digits.Lemmas

/-!
Bytes and elements stand for each other.

There are two ways out of an element, its digits to the base 256 and the two limbs as they lie in
memory, and three ways back that differ in how long a byte string they take and in what they say of
one that they refuse. All of them are tied to one number: sixteen bytes are determined by the number
they stand for (`Word.numberOf_inj`), and both ways out stand for the number of the word
(`Word.numberOf_toBytes`, `Word.numberOf_view`). So the ways out agree byte by byte, and each way
back is exactly the inverse of them, on every byte string and not only on those that were written
(`Element.encodings_exact`).
-/

set_option autoImplicit false

namespace Arithmetization

namespace Word

/-! ## Numbers and their bytes -/

/-- Bytes are digits to the base 256, the lowest first. -/
theorem numberOf_eq_ofDigits (b : List UInt8) :
    numberOf b = Nat.ofDigits 256 (b.map UInt8.toNat) := by
  induction b with
  | nil => rfl
  | cons x b ih => rw [numberOf, ih, List.map_cons, Nat.ofDigits_cons]

/-- A byte is a digit. -/
theorem digit_lt (b : List UInt8) : ∀ d ∈ b.map UInt8.toNat, d < 256 := by
  intro d hd
  obtain ⟨x, -, rfl⟩ := List.mem_map.1 hd
  exact x.toNat_lt

/-- As many bytes stand for no more than that many digits can. -/
theorem numberOf_lt (b : List UInt8) : numberOf b < 256 ^ b.length := by
  have hlt := Nat.ofDigits_lt_base_pow_length (by decide : 1 < 256) (digit_lt b)
  rwa [List.length_map, ← numberOf_eq_ofDigits] at hlt

/-- As many bytes that stand for the same number are the same. -/
theorem numberOf_inj {a b : List UInt8} (hlen : a.length = b.length)
    (h : numberOf a = numberOf b) : a = b := by
  rw [numberOf_eq_ofDigits, numberOf_eq_ofDigits] at h
  have hdigits := Nat.ofDigits_inj_of_len_eq (by decide : 1 < 256)
    (by rwa [List.length_map, List.length_map]) (digit_lt a) (digit_lt b) h
  exact List.map_injective_iff.2 (fun x y hxy => UInt8.toNat_inj.1 hxy) hdigits

/-- Bytes that follow count for as many places higher. -/
theorem numberOf_append (a b : List UInt8) :
    numberOf (a ++ b) = numberOf a + 256 ^ a.length * numberOf b := by
  rw [numberOf_eq_ofDigits, List.map_append, Nat.ofDigits_append, List.length_map,
    ← numberOf_eq_ofDigits, ← numberOf_eq_ofDigits]

@[simp] theorem length_bytesOf (n v : Nat) : (bytesOf n v).length = n := by
  induction n generalizing v with
  | zero => rfl
  | succ n ih => rw [bytesOf, List.length_cons, ih]

/-- The lowest bytes of a number stand for what is left of it modulo a power of 256. -/
theorem numberOf_bytesOf (n v : Nat) : numberOf (bytesOf n v) = v % 256 ^ n := by
  induction n generalizing v with
  | zero => rw [bytesOf, numberOf, pow_zero, Nat.mod_one]
  | succ n ih => rw [bytesOf, numberOf, ih, UInt8.toNat_ofNat', pow_succ' 256 n, Nat.mod_mul]

/-! ## Words -/

/-- Sixteen bytes have as many values as a word. -/
theorem size_eq : size = 256 ^ elementBytes := by
  decide

/-- A limb has no more bytes than are listed of it. -/
theorem numberOf_limb (x : UInt64) : numberOf (bytesOf limbBytes x.toNat) = x.toNat := by
  rw [numberOf_bytesOf]
  exact Nat.mod_eq_of_lt x.toNat_lt

@[simp] theorem length_toBytes (w : Word) : w.toBytes.length = elementBytes :=
  length_bytesOf ..

@[simp] theorem length_view (w : Word) : w.view.length = elementBytes := by
  rw [view, List.length_append, length_bytesOf, length_bytesOf]
  rfl

/-- Nothing of a word is cut off when its digits are written. -/
theorem numberOf_toBytes (w : Word) : numberOf w.toBytes = w.toNat := by
  rw [toBytes, numberOf_bytesOf, ← size_eq]
  exact Nat.mod_eq_of_lt w.toNat_lt_size

/-- The high limb counts for eight places more than the low one. -/
theorem numberOf_view (w : Word) : numberOf w.view = w.toNat := by
  rw [view, numberOf_append, length_bytesOf, numberOf_limb, numberOf_limb, Nat.add_comm]
  rfl

/-- **Digits and memory.** The bytes of a number are those of its limbs, the low limb first. -/
theorem view_eq_toBytes (w : Word) : w.view = w.toBytes := by
  apply numberOf_inj
  · rw [length_view, length_toBytes]
  · rw [numberOf_view, numberOf_toBytes]

theorem toNat_ofBytes {b : List UInt8} (h : b.length = elementBytes) :
    (ofBytes b).toNat = numberOf b := by
  have hlt := numberOf_lt b
  rw [h, ← size_eq] at hlt
  rw [ofBytes, toNat_ofNat]
  exact Nat.mod_eq_of_lt hlt

/-- A word is read from its own bytes and from no others of that length. -/
theorem ofBytes_eq_iff {b : List UInt8} (h : b.length = elementBytes) {w : Word} :
    ofBytes b = w ↔ b = w.view := by
  rw [← toNat_inj, toNat_ofBytes h, ← numberOf_view]
  constructor
  · exact numberOf_inj (by rw [h, length_view])
  · intro hb
    rw [hb]

/-- Limbs that lie in memory are taken up again as they are. -/
theorem ofView_view (w : Word) : ofView w.view = w := by
  have hlen : (bytesOf limbBytes w.low.toNat).length = limbBytes := length_bytesOf ..
  rw [ofView, view, List.drop_left' hlen, List.take_left' hlen, numberOf_limb, numberOf_limb,
    UInt64.ofNat_toNat, UInt64.ofNat_toNat]

/-- Words laid out one after the other are cut apart again. -/
theorem split_flatMap_view (ws : List Word) : split ws.length (ws.flatMap view) = ws := by
  induction ws with
  | nil => rfl
  | cons w ws ih =>
    rw [List.length_cons, List.flatMap_cons, split, List.take_left' (length_view w),
      List.drop_left' (length_view w), ofView_view, ih]

theorem length_flatMap_view (ws : List Word) :
    (ws.flatMap view).length = ws.length * elementBytes := by
  induction ws with
  | nil => rw [List.flatMap_nil, List.length_nil, List.length_nil, Nat.zero_mul]
  | cons w ws ih =>
    rw [List.flatMap_cons, List.length_append, length_view, ih, List.length_cons, Nat.succ_mul,
      Nat.add_comm]

theorem listOfBytes_flatMap_view (ws : List Word) : listOfBytes (ws.flatMap view) = .ok ws := by
  have hdvd : (ws.flatMap view).length % elementBytes = 0 := by
    rw [length_flatMap_view, Nat.mul_mod_left]
  have hcount : (ws.flatMap view).length / elementBytes = ws.length := by
    rw [length_flatMap_view, Nat.mul_div_cancel _ (by decide)]
  rw [listOfBytes, if_pos hdvd, hcount, split_flatMap_view]

end Word

namespace Element

/-! ## Elements -/

theorem view_eq (a : Element) : a.view = a.word.view := by
  rw [view, listToBytes, List.flatMap_singleton]

/-- A word is converted to the element that has this word, so only a reduced one is. -/
theorem convert_eq_ok {w : Word} {a : Element} : convert w = .ok a ↔ w = a.word := by
  unfold convert ofWord?
  by_cases hw : w.toNat < Word.modulus
  · rw [dif_pos hw]
    constructor
    · intro h
      rw [← Except.ok.inj h]
    · rintro rfl
      rfl
  · rw [dif_neg hw]
    constructor
    · intro h
      cases h
    · rintro rfl
      exact absurd a.word_lt hw

theorem exists_convert_iff {w : Word} : (∃ a, convert w = .ok a) ↔ w.toNat < Word.modulus := by
  constructor
  · rintro ⟨a, ha⟩
    rw [convert_eq_ok.1 ha]
    exact a.word_lt
  · intro h
    exact ⟨⟨w, h⟩, convert_eq_ok.2 rfl⟩

/-- Of all byte strings, an element is made from the one that it lies in memory as. -/
theorem ofBytes_eq_ok {b : List UInt8} {a : Element} : ofBytes b = .ok a ↔ b = a.view := by
  unfold ofBytes
  rw [view_eq]
  by_cases hlen : b.length = elementBytes
  · rw [if_pos hlen, convert_eq_ok, Word.ofBytes_eq_iff hlen]
  · rw [if_neg hlen]
    constructor
    · intro h
      cases h
    · rintro rfl
      exact absurd a.word.length_view hlen

/-- What is refused has another length, or stands for a number that is not reduced. -/
theorem exists_ofBytes_iff {b : List UInt8} :
    (∃ a, ofBytes b = .ok a) ↔
      b.length = elementBytes ∧ Nat.ofDigits 256 (b.map UInt8.toNat) < Word.modulus := by
  unfold ofBytes
  by_cases hlen : b.length = elementBytes
  · rw [if_pos hlen, exists_convert_iff, Word.toNat_ofBytes hlen, Word.numberOf_eq_ofDigits]
    exact (and_iff_right hlen).symm
  · rw [if_neg hlen]
    constructor
    · rintro ⟨a, ha⟩
      cases ha
    · intro h
      exact absurd h.1 hlen

/-- Random bytes are no other bytes: only the reason of a refusal is lost. -/
theorem ofRandomBytes?_eq_some {b : List UInt8} {a : Element} :
    ofRandomBytes? b = some a ↔ ofBytes b = .ok a := by
  unfold ofRandomBytes?
  cases ofBytes b with
  | ok x => rw [Except.toOption, Option.some.injEq, Except.ok.injEq]
  | error f => simp [Except.toOption]

/-- Reading looks at the first sixteen bytes and takes them as an element. -/
theorem read_eq_ok {b : List UInt8} {a : Element} :
    read b = .ok a ↔ elementBytes ≤ b.length ∧ ofBytes (b.take elementBytes) = .ok a := by
  unfold read ofBytes
  by_cases hlen : b.length < elementBytes
  · rw [if_pos hlen]
    constructor
    · intro h
      cases h
    · intro h
      omega
  · have htake : (b.take elementBytes).length = elementBytes := by
      rw [List.length_take]
      omega
    rw [if_neg hlen, if_pos htake]
    exact (and_iff_right (Nat.not_lt.1 hlen)).symm

/-- What is read is at the head, whatever follows. -/
theorem read_eq_ok_iff {b : List UInt8} {a : Element} :
    read b = .ok a ↔ ∃ rest, b = a.view ++ rest := by
  have hview : a.view.length = elementBytes := by rw [view_eq, Word.length_view]
  rw [read_eq_ok, ofBytes_eq_ok]
  constructor
  · rintro ⟨-, htake⟩
    exact ⟨b.drop elementBytes, by rw [← htake, List.take_append_drop]⟩
  · rintro ⟨rest, rfl⟩
    rw [List.length_append, hview, List.take_left' hview]
    exact ⟨Nat.le_add_right _ _, rfl⟩

/-- **Bytes and elements are inverse to each other.** Every element is written, and lies in memory,
as the sixteen digits of its number to the base 256, the lowest first. A byte string is converted to
an element, also as random bytes, exactly if it is what that element is written as, and an element
is read exactly if what it is written as comes first. So a byte string is accepted if and only if it
has sixteen bytes, or at least sixteen bytes for reading, and these stand for a number below the
modulus. Several elements lie in memory as one written after the other, and from there they are
taken back one by one. -/
theorem encodings_exact :
    (∀ x : Element, x.view.length = 16 ∧ Nat.ofDigits 256 (x.view.map UInt8.toNat) = x.toNat
        ∧ ∀ target, write target x = target ++ x.view)
      ∧ (∀ (b : List UInt8) (x : Element), (ofBytes b = .ok x ↔ b = x.view)
        ∧ (ofRandomBytes? b = some x ↔ b = x.view)
        ∧ (read b = .ok x ↔ ∃ rest, b = x.view ++ rest))
      ∧ (∀ b : List UInt8,
        ((∃ x, ofBytes b = .ok x) ↔
          b.length = 16 ∧ Nat.ofDigits 256 (b.map UInt8.toNat) < Word.modulus)
        ∧ ((∃ x, ofRandomBytes? b = some x) ↔
          b.length = 16 ∧ Nat.ofDigits 256 (b.map UInt8.toNat) < Word.modulus)
        ∧ ((∃ x, read b = .ok x) ↔
          16 ≤ b.length ∧ Nat.ofDigits 256 ((b.take 16).map UInt8.toNat) < Word.modulus))
      ∧ ∀ xs : List Element, listToBytes xs = xs.flatMap toBytes
        ∧ Word.listOfBytes (listToBytes xs) = .ok (xs.map word) := by
  refine ⟨fun x => ⟨?_, ?_, fun target => ?_⟩, fun b x => ⟨ofBytes_eq_ok, ?_, read_eq_ok_iff⟩,
    fun b => ⟨exists_ofBytes_iff, ?_, ?_⟩, fun xs => ⟨?_, ?_⟩⟩
  · rw [view_eq, Word.length_view]
    rfl
  · rw [view_eq, ← Word.numberOf_eq_ofDigits, Word.numberOf_view]
    rfl
  · rw [write, view_eq, Word.view_eq_toBytes]
    rfl
  · rw [ofRandomBytes?_eq_some, ofBytes_eq_ok]
  · simp only [ofRandomBytes?_eq_some]
    exact exists_ofBytes_iff
  · -- the first sixteen bytes are sixteen, since there are as many
    simp only [read_eq_ok, exists_and_left, exists_ofBytes_iff, List.length_take]
    constructor
    · rintro ⟨hlen, -, hlt⟩
      exact ⟨hlen, hlt⟩
    · rintro ⟨hlen, hlt⟩
      exact ⟨hlen, Nat.min_eq_left hlen, hlt⟩
  · rw [listToBytes]
    exact List.flatMap_congr fun x _ => Word.view_eq_toBytes x.word
  · rw [listToBytes, ← List.flatMap_map word Word.view]
    exact Word.listOfBytes_flatMap_view _

end Element

end Arithmetization
