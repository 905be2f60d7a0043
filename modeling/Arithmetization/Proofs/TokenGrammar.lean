import Arithmetization.Proofs.Outcomes
import Arithmetization.Proofs.Spelling
import Mathlib.Algebra.GroupWithZero.Nat
import Mathlib.Data.List.TakeWhile

/-!
The token grammar.

A text is cut into items: blanks, comments, parentheses, symbols, decimal numbers and byte strings.
`Item.WellFormed` says which characters an item may have, and `Item.Ends` that the text after it
does not go on with it: a word is followed by no character that words are made of, whatever kind of
word it is, and a comment only by a newline. `Item.Cuts text items` puts both together for a whole
text. There is at most one way to cut a text (`Item.Fit.unique`).

Scanning finds this cut. It takes one item at a time: a well-formed item is taken whole
(`Item.WellFormed.taken`), and what is taken is a well-formed item (`Item.exists_of_ofItem?`). From
this one step follow both directions for whole texts: what is cut is scanned
(`Item.Fit.scanFrom_eq_ok`), and what is scanned is cut (`Item.cuts_of_scanFrom`). The place of a
token is counted from the characters before it (`Position.after`), independently of how scanning
keeps track of it. The result is `Token.scan_exact`.
-/

set_option autoImplicit false

namespace Arithmetization

/-! ## Places -/

namespace Position

/-- The line, counted from one, of the character that follows `before`. -/
def lineAfter (before : List Char) : Nat :=
  before.count '\n' + 1

/-- The column, counted from one, of the character that follows `before`: one more than the
characters since the last newline. -/
def columnAfter (before : List Char) : Nat :=
  (before.reverse.takeWhile (· != '\n')).length + 1

/-- The place of the character that follows `before`, in counters of 32 bits. -/
def after (before : List Char) : Position :=
  ⟨.ofNat (lineAfter before), .ofNat (columnAfter before)⟩

theorem lineAfter_concat (before : List Char) (c : Char) :
    lineAfter (before ++ [c]) = if c = '\n' then lineAfter before + 1 else lineAfter before := by
  unfold lineAfter
  by_cases hc : c = '\n'
  · rw [if_pos hc, hc, List.count_append]
    rfl
  · rw [if_neg hc, List.count_append, List.count_singleton, beq_false_of_ne hc]
    rfl

theorem columnAfter_concat (before : List Char) (c : Char) :
    columnAfter (before ++ [c]) = if c = '\n' then 1 else columnAfter before + 1 := by
  by_cases hc : c = '\n'
  · simp [columnAfter, hc]
  · simp [columnAfter, hc]

theorem next_after (before : List Char) (c : Char) :
    (after before).next c = after (before ++ [c]) := by
  unfold after next
  rw [lineAfter_concat, columnAfter_concat]
  by_cases hc : c = '\n'
  · rw [if_pos hc, if_pos hc, if_pos hc, UInt32.ofNat_add]
    rfl
  · rw [if_neg hc, if_neg hc, if_neg hc, UInt32.ofNat_add]
    rfl

theorem advance_after (before cs : List Char) :
    (after before).advance cs = after (before ++ cs) := by
  induction cs generalizing before with
  | nil => rw [advance_nil, List.append_nil]
  | cons c cs ih => rw [advance_cons, next_after, ih, List.append_assoc, List.singleton_append]

/-- The line and the column of the character that follows `before` are in the range of their
counters. -/
def Counted (before : List Char) : Prop :=
  lineAfter before < 2 ^ 32 ∧ columnAfter before < 2 ^ 32

/-- All characters of a text, and its end, have lines and columns in the range of the counters. -/
def Fits (text : List Char) : Prop :=
  ∀ before, before <+: text → Counted before

theorem toNat_after (before : List Char) :
    (after before).line.toNat = lineAfter before % 2 ^ 32
      ∧ (after before).column.toNat = columnAfter before % 2 ^ 32 :=
  ⟨UInt32.toNat_ofNat', UInt32.toNat_ofNat'⟩

/-- Lines and columns are at most as many as characters. -/
theorem fits_of_length {text : List Char} (h : text.length + 1 < 2 ^ 32) : Fits text := by
  intro before hbefore
  have hlen : before.length ≤ text.length := hbefore.length_le
  have hline : before.count '\n' ≤ before.length := List.count_le_length
  have hcolumn : (before.reverse.takeWhile (· != '\n')).length ≤ before.length :=
    (List.takeWhile_sublist _).length_le.trans_eq List.length_reverse
  constructor
  · rw [lineAfter]
    omega
  · rw [columnAfter]
    omega

/-- A counter in its range is at its greatest value exactly if the next one is out of range. -/
theorem isLast_after {before : List Char} (h : Counted before) (c : Char) :
    (after before).isLast c = true ↔ ¬Counted (before ++ [c]) := by
  have hlast : ∀ n : Nat, n < 2 ^ 32 →
      ((UInt32.ofNat n == 0xFFFFFFFF) = true ↔ ¬n + 1 < 2 ^ 32) := by
    intro n hn
    rw [beq_iff_eq, ← UInt32.toNat_inj, UInt32.toNat_ofNat_of_lt' hn]
    exact ⟨fun h => (by rw [h]; decide), fun h => (by change n = 4294967295; omega)⟩
  unfold isLast Counted
  rw [lineAfter_concat, columnAfter_concat]
  by_cases hc : c = '\n'
  · rw [if_pos hc, if_pos hc, if_pos hc, after, hlast _ h.1]
    simp
  · rw [if_neg hc, if_neg hc, if_neg hc, after, hlast _ h.2]
    exact not_congr ⟨fun hn => ⟨h.1, hn⟩, fun hn => hn.2⟩

/-- Where a stop is made of an overflow, the place moves over characters that stay in range and
over no others. -/
theorem move_after {before : List Char} (h : Counted before) (cs : List Char) :
    ((after before).move .trap cs = .ok (after (before ++ cs))
        ∧ ∀ p, p <+: cs → Counted (before ++ p))
      ∨ (after before).move .trap cs = .error .overflow
        ∧ ∃ p, p <+: cs ∧ ¬Counted (before ++ p) := by
  induction cs generalizing before with
  | nil =>
    refine .inl ⟨by rw [List.append_nil]; rfl, fun p hp => ?_⟩
    rwa [List.prefix_nil.1 hp, List.append_nil]
  | cons c cs ih =>
    have hmove : (after before).move .trap (c :: cs)
        = (after before).step .trap c >>= fun p => p.move .trap cs := rfl
    rw [hmove, step]
    by_cases hc : Counted (before ++ [c])
    · rw [if_neg fun hstop => (isLast_after h c).1 hstop.2 hc, next_after]
      have hcons : ∀ p, before ++ c :: p = before ++ [c] ++ p := fun p => by
        rw [List.append_assoc, List.singleton_append]
      rcases ih hc with ⟨hmove, hall⟩ | ⟨hmove, p, hp, hnot⟩
      · refine .inl ⟨by rw [hcons cs]; exact hmove, fun p hp => ?_⟩
        rcases List.prefix_cons_iff.1 hp with rfl | ⟨p', rfl, hp'⟩
        · rwa [List.append_nil]
        · rw [hcons]
          exact hall p' hp'
      · exact .inr ⟨hmove, c :: p, List.cons_prefix_cons.2 ⟨rfl, hp⟩, by rwa [hcons]⟩
    · rw [if_pos ⟨rfl, (isLast_after h c).2 hc⟩]
      exact .inr ⟨rfl, [c], List.cons_prefix_cons.2 ⟨rfl, List.nil_prefix⟩, hc⟩

end Position

/-! ## Numbers and byte strings -/

namespace Text

/-- Whether `c` is a hexadecimal digit of either case. -/
def isHexDigit (c : Char) : Bool :=
  (hexDigit? c).isSome

/-- The value of a hexadecimal digit. -/
def nibble (c : Char) : Nat :=
  (hexDigit? c).getD 0

/-- Two nibbles a byte, the high one first. -/
def packed : List Nat → List UInt8
  | hi :: lo :: rest => UInt8.ofNat (16 * hi + lo) :: packed rest
  | _ => []

/-- The bytes of hexadecimal digits, with a zero nibble in front of an odd number of them. -/
def hexBytes (digits : List Char) : List UInt8 :=
  packed (if digits.length % 2 = 1 then 0 :: digits.map nibble else digits.map nibble)

theorem decimal?_eq_some {digits : List Char} {n : Nat} :
    decimal? digits = some n ↔
      digits ≠ [] ∧ (∀ c ∈ digits, isDigit c = true) ∧ n = Nat.ofDigitChars 10 digits 0 := by
  rw [Nat.ofDigitChars_eq_foldl]
  unfold decimal?
  split
  · next h =>
    refine ⟨fun hn => (by cases hn), fun ⟨hne, hall, _⟩ => ?_⟩
    simp [hne, List.all_eq_true.2 hall] at h
  · next h =>
    simp only [Bool.or_eq_true, Bool.not_eq_true', not_or, Bool.not_eq_false, List.isEmpty_iff,
      List.all_eq_true] at h
    rw [Option.some.injEq]
    exact ⟨fun hn => ⟨h.1, h.2, hn.symm⟩, fun hn => hn.2.2.symm⟩

/-- Pairs of digits are read one by one, so every digit is looked at. -/
theorem hexPairs?_eq_some {digits : List Char} {bytes : List UInt8}
    (heven : digits.length % 2 = 0) :
    hexPairs? digits = some bytes ↔
      (∀ c ∈ digits, isHexDigit c = true) ∧ bytes = packed (digits.map nibble) := by
  fun_induction hexPairs? digits generalizing bytes with
  | case1 => exact ⟨fun h => ⟨List.forall_mem_nil _, (Option.some.inj h).symm⟩, fun h => h.2 ▸ rfl⟩
  | case2 c => cases heven
  | case3 hi lo rest h l rest' hrest hhi hlo ih =>
    rw [List.length_cons, List.length_cons] at heven
    have hdigits := (ih (by omega)).1 hrest
    have hbytes : packed ((hi :: lo :: rest).map nibble) = UInt8.ofNat (16 * h + l) :: rest' := by
      rw [List.map_cons, List.map_cons, packed, hdigits.2, nibble, nibble, hhi, hlo]
      rfl
    rw [hbytes, Option.some.injEq, eq_comm, List.forall_mem_cons, List.forall_mem_cons, isHexDigit,
      isHexDigit, hhi, hlo]
    exact ⟨fun hb => ⟨⟨rfl, rfl, hdigits.1⟩, hb⟩, fun hb => hb.2⟩
  | case4 hi lo rest hnone ih =>
    refine ⟨fun h => (by cases h), fun ⟨hall, _⟩ => ?_⟩
    rw [List.forall_mem_cons, List.forall_mem_cons] at hall
    obtain ⟨h, hh⟩ := Option.isSome_iff_exists.1 hall.1
    obtain ⟨l, hl⟩ := Option.isSome_iff_exists.1 hall.2.1
    rw [List.length_cons, List.length_cons] at heven
    have hrest := (ih (by omega)).2 ⟨hall.2.2, rfl⟩
    exact (hnone h l _ hh hl hrest).elim

theorem hexBytes?_eq_some {digits : List Char} {bytes : List UInt8} :
    hexBytes? digits = some bytes ↔
      digits ≠ [] ∧ (∀ c ∈ digits, isHexDigit c = true) ∧ bytes = hexBytes digits := by
  unfold hexBytes? hexBytes
  split
  · next h => exact ⟨fun h => (by cases h), fun hd => absurd (List.isEmpty_iff.1 h) hd.1⟩
  next hne =>
  have hdigits : digits ≠ [] := mt List.isEmpty_iff.2 hne
  split
  · next hodd =>
    -- the zero in front is a digit with the value zero
    rw [hexPairs?_eq_some (by rw [List.length_cons]; omega), List.forall_mem_cons]
    exact ⟨fun h => ⟨hdigits, h.1.2, h.2⟩, fun h => ⟨⟨rfl, h.2.1⟩, h.2.2⟩⟩
  · next heven =>
    rw [hexPairs?_eq_some (by omega)]
    exact ⟨fun h => ⟨hdigits, h⟩, fun h => h.2⟩

theorem isSymbolPart_of_isHexDigit {c : Char} (h : isHexDigit c = true) :
    Token.isSymbolPart c = true := by
  have hle : ∀ lo hi : Char, (decide (lo ≤ c) && decide (c ≤ hi)) = true →
      lo.toNat ≤ c.toNat ∧ c.toNat ≤ hi.toNat := by
    intro lo hi hc
    rw [Bool.and_eq_true, decide_eq_true_iff, decide_eq_true_iff] at hc
    exact hc
  apply Token.isSymbolPart_of_start
  rw [Token.isSymbolStart_iff]
  unfold isHexDigit hexDigit? at h
  split at h
  · next hdigit => exact .inl hdigit
  split at h
  · next hlower =>
    obtain ⟨hlo, hhi⟩ := hle 'a' 'f' hlower
    exact .inr (.inl ⟨hlo, hhi.trans (by decide)⟩)
  split at h
  · next hupper =>
    obtain ⟨hlo, hhi⟩ := hle 'A' 'F' hupper
    exact .inr (.inr (.inl ⟨hlo, hhi.trans (by decide)⟩))
  · cases h

end Text

/-! ## Items and cuts -/

/-- An item of a text, with the characters that tell it from others of its kind. -/
inductive Item where
  | blank (c : Char)
  | comment (body : List Char)
  | opening
  | closing
  | sym (first : Char) (more : List Char)
  | int (digits : List Char)
  | hex (digits : List Char)
deriving DecidableEq, Repr

namespace Item

/-- The characters of an item. -/
def text : Item → List Char
  | blank c => [c]
  | comment body => ';' :: body
  | opening => ['(']
  | closing => [')']
  | sym first more => first :: more
  | int digits => digits
  | hex digits => '0' :: 'x' :: digits

/-- The token that an item stands for; separators stand for none. -/
def kind? : Item → Option TokenKind
  | blank _ | comment _ => none
  | opening => some .opening
  | closing => some .closing
  | sym first more => some (.sym (String.ofList (first :: more)))
  | int digits => some (.int (Nat.ofDigitChars 10 digits 0))
  | hex digits => some (.hex (Text.hexBytes digits))

/-- An item of the right characters: a comment stays on its line, a number is below `2 ^ 128` and a
byte string has at least one digit. -/
def WellFormed : Item → Prop
  | blank c => Text.isBlank c = true
  | comment body => '\n' ∉ body
  | opening | closing => True
  | sym first more => Token.isSymbolStart first = true ∧ ∀ c ∈ more, Token.isSymbolPart c = true
  | int digits =>
    digits ≠ [] ∧ (∀ c ∈ digits, Text.isDigit c = true)
      ∧ Nat.ofDigitChars 10 digits 0 < 0x100000000000000000000000000000000
  | hex digits => digits ≠ [] ∧ ∀ c ∈ digits, Text.isHexDigit c = true

/-- The item ends where `rest` begins: a comment runs to the end of its line, and a word as far as
there are characters of words. -/
def Ends (rest : List Char) : Item → Prop
  | blank _ | opening | closing => True
  | comment _ => ∀ c ∈ rest.head?, c = '\n'
  | sym _ _ | int _ | hex _ => ∀ c ∈ rest.head?, Token.isSymbolPart c = false

-- Quantifiers are decided along the text; the characters themselves are too many to go through.
instance : (item : Item) → Decidable item.WellFormed
  | blank c => inferInstanceAs (Decidable (Text.isBlank c = true))
  | comment body => inferInstanceAs (Decidable ('\n' ∉ body))
  | opening | closing => inferInstanceAs (Decidable True)
  | sym _ more =>
    have : Decidable (∀ c ∈ more, Token.isSymbolPart c = true) := List.decidableBAll _ _
    inferInstanceAs (Decidable (_ ∧ _))
  | int digits =>
    have : Decidable (∀ c ∈ digits, Text.isDigit c = true) := List.decidableBAll _ _
    inferInstanceAs (Decidable (_ ∧ _ ∧ _ < _))
  | hex digits =>
    have : Decidable (∀ c ∈ digits, Text.isHexDigit c = true) := List.decidableBAll _ _
    inferInstanceAs (Decidable (_ ∧ _))

instance (rest : List Char) : (item : Item) → Decidable (item.Ends rest)
  | blank _ | opening | closing => inferInstanceAs (Decidable True)
  | comment _ => Option.decidableForallMem (p := (· = '\n')) rest.head?
  | sym _ _ | int _ | hex _ =>
    Option.decidableForallMem (p := (Token.isSymbolPart · = false)) rest.head?

/-- Well-formed items, each of which ends where the next begins. -/
def Fit : List Item → Prop
  | [] => True
  | item :: items => item.WellFormed ∧ item.Ends (items.flatMap text) ∧ Fit items

instance decidableFit : (items : List Item) → Decidable (Fit items)
  | [] => inferInstanceAs (Decidable True)
  | item :: items =>
    have := decidableFit items
    inferInstanceAs (Decidable (_ ∧ item.Ends (items.flatMap text) ∧ Fit items))

/-- The text is made of these items, each as long as it can be. -/
def Cuts (cs : List Char) (items : List Item) : Prop :=
  items.flatMap text = cs ∧ Fit items

instance (cs : List Char) (items : List Item) : Decidable (Cuts cs items) :=
  inferInstanceAs (Decidable (_ ∧ _))

/-- The tokens of items that stand after the characters `before`, each with the place of its first
character, closed by one `eof`. -/
def tokens (before : List Char) : List Item → List Token
  | [] => [⟨.eof, .after before⟩]
  | item :: items =>
    (item.kind?.map (Token.mk · (.after before))).toList ++ tokens (before ++ item.text) items

/-! ## One item -/

/-- Scanning takes the whole of an item that ends where the rest begins, as the token that the item
stands for. -/
def Taken (item : Item) : Prop :=
  ∃ c more, item.text = c :: more ∧ Token.ofItem? c more = .ok item.kind?
    ∧ ∀ rest, item.Ends rest → Token.itemRest c (more ++ rest) = more

theorem taken_of_isWord {item : Item} {k : TokenKind} (hword : Token.IsWord item.text k)
    (hkind : item.kind? = some k)
    (hends : ∀ rest, item.Ends rest → ∀ c ∈ rest.head?, Token.isSymbolPart c = false) :
    item.Taken := by
  obtain ⟨c, more, htext, hstart, hitem⟩ := hword.item
  have hmore : ∀ d ∈ more, Token.isSymbolPart d = true := by
    intro d hd
    exact hword.parts d (htext ▸ List.mem_cons_of_mem c hd)
  refine ⟨c, more, htext, hkind ▸ hitem, ?_⟩
  intro rest hrest
  exact Token.itemRest_word hstart hmore (hends rest hrest)

theorem WellFormed.taken {item : Item} (h : item.WellFormed) : item.Taken := by
  cases item with
  | blank c =>
    exact ⟨c, [], rfl, Token.ofItem?_blank h [], fun rest _ => Token.itemRest_blank h rest⟩
  | comment body =>
    refine ⟨';', body, rfl, rfl, ?_⟩
    intro rest hrest
    have hbody : ∀ c ∈ body, (c != '\n') = true := by
      intro c hc
      exact bne_iff_ne.2 fun heq => h (heq ▸ hc)
    exact Token.takeWhile_append_of_head hbody fun c hc => by rw [hrest c hc]; rfl
  | opening => exact ⟨'(', [], rfl, rfl, fun _ _ => rfl⟩
  | closing => exact ⟨')', [], rfl, rfl, fun _ _ => rfl⟩
  | sym first more => exact taken_of_isWord (.sym h.1 h.2) rfl fun _ hrest => hrest
  | int digits =>
    have hdecimal := Text.decimal?_eq_some.2 ⟨h.1, h.2.1, rfl⟩
    exact taken_of_isWord (.int hdecimal h.2.2) rfl fun _ hrest => hrest
  | hex digits =>
    have hbytes := Text.hexBytes?_eq_some.2 ⟨h.1, h.2, rfl⟩
    refine taken_of_isWord (.hex hbytes ?_) rfl fun _ hrest => hrest
    exact fun c hc => Text.isSymbolPart_of_isHexDigit (h.2 c hc)

/-- A word that starts with a digit is a number or a byte string. -/
theorem exists_of_number {word : List Char} {k : TokenKind} (h : Token.number word = .ok k) :
    ∃ item : Item, item.WellFormed ∧ item.text = word ∧ item.kind? = some k
      ∧ ∀ rest : List Char, (∀ c ∈ rest.head?, Token.isSymbolPart c = false) → item.Ends rest := by
  unfold Token.number at h
  split at h
  · next digits =>
    split at h
    · next bytes hbytes =>
      obtain ⟨hne, hdigits, rfl⟩ := Text.hexBytes?_eq_some.1 hbytes
      obtain rfl := Except.ok.inj h
      exact ⟨hex digits, ⟨hne, hdigits⟩, rfl, rfl, fun _ hrest => hrest⟩
    · cases h
  split at h
  · next n hn =>
    obtain ⟨hne, hdigits, rfl⟩ := Text.decimal?_eq_some.1 hn
    split at h
    · next hbound =>
      obtain rfl := Except.ok.inj h
      exact ⟨int word, ⟨hne, hdigits, hbound⟩, rfl, rfl, fun _ hrest => hrest⟩
    · cases h
  · cases h

theorem itemRest_isPrefix (c : Char) (cs : List Char) : Token.itemRest c cs <+: cs := by
  unfold Token.itemRest
  split
  · exact List.takeWhile_prefix _
  split
  · exact List.takeWhile_prefix _
  · exact List.nil_prefix

theorem head?_drop_takeWhile (p : Char → Bool) (cs : List Char) :
    ∀ c ∈ (cs.drop (cs.takeWhile p).length).head?, p c = false := by
  induction cs with
  | nil => simp
  | cons c cs ih =>
    by_cases hc : p c = true
    · rw [List.takeWhile_cons_of_pos hc]
      exact ih
    · rw [List.takeWhile_cons_of_neg hc]
      simpa using hc

/-- **What scanning takes is an item** that ends where the rest begins. -/
theorem exists_of_ofItem? {c : Char} {cs : List Char} {kind? : Option TokenKind}
    (h : Token.ofItem? c (Token.itemRest c cs) = .ok kind?) :
    ∃ item : Item, item.WellFormed ∧ item.text = c :: Token.itemRest c cs ∧ item.kind? = kind?
      ∧ item.Ends (cs.drop (Token.itemRest c cs).length) := by
  -- the rest of a word starts with no character of words
  have hword : Text.isDigit c = true ∨ Token.isSymbolStart c = true →
      Token.itemRest c cs = cs.takeWhile Token.isSymbolPart := by
    intro hc
    have hsemicolon : ¬ (c == ';') = true := by
      intro heq
      obtain rfl := beq_iff_eq.1 heq
      revert hc
      decide
    rw [Token.itemRest, if_neg hsemicolon, if_pos (Bool.or_eq_true .. ▸ hc)]
  unfold Token.ofItem? at h
  split at h
  · next hc =>
    obtain rfl := beq_iff_eq.1 hc
    exact ⟨opening, trivial, rfl, Except.ok.inj h, trivial⟩
  split at h
  · next hc =>
    obtain rfl := beq_iff_eq.1 hc
    exact ⟨closing, trivial, rfl, Except.ok.inj h, trivial⟩
  split at h
  · next hc =>
    by_cases hblank : Text.isBlank c = true
    · rw [Token.itemRest_blank hblank]
      exact ⟨blank c, hblank, rfl, Except.ok.inj h, trivial⟩
    · obtain rfl : c = ';' := by simpa [hblank] using hc
      refine ⟨comment (cs.takeWhile (· != '\n')), ?_, rfl, Except.ok.inj h, ?_⟩
      · intro hmem
        exact absurd (List.mem_takeWhile_imp hmem) (by decide)
      · intro d hd
        simpa using head?_drop_takeWhile (· != '\n') cs d hd
  split at h
  · next hdigit =>
    obtain ⟨k, hnumber, rfl⟩ := map_eq_ok.1 h
    obtain ⟨item, hitem, htext, hkind, hends⟩ := exists_of_number hnumber
    refine ⟨item, hitem, htext, hkind, hends _ ?_⟩
    rw [hword (.inl hdigit)]
    exact head?_drop_takeWhile _ cs
  split at h
  · next hstart =>
    rw [hword (.inr hstart)] at h ⊢
    refine ⟨sym c (cs.takeWhile Token.isSymbolPart), ⟨hstart, ?_⟩, rfl, Except.ok.inj h, ?_⟩
    · exact fun d hd => List.mem_takeWhile_imp hd
    · exact head?_drop_takeWhile _ cs
  · cases h

/-! ## Whole texts -/

/-- The item of a text that is one item. -/
def ofText : List Char → Item
  | [] => int []
  | c :: more =>
    if c = '(' then opening
    else if c = ')' then closing
    else if c = ';' then comment more
    else if Text.isBlank c then blank c
    else if Token.isSymbolStart c then sym c more
    else if more.head? = some 'x' then hex more.tail
    else int (c :: more)

theorem WellFormed.ofText_text {item : Item} (h : item.WellFormed) : ofText item.text = item := by
  -- characters of words are neither blanks nor parentheses nor semicolons
  have hword : ∀ c more, Token.isSymbolPart c = true → ofText (c :: more)
      = if Token.isSymbolStart c then sym c more
        else if more.head? = some 'x' then hex more.tail else int (c :: more) := by
    intro c more hc
    have hne : ∀ d, Token.isSymbolPart d = false → c ≠ d := by
      rintro d hd rfl
      rw [hc] at hd
      cases hd
    rw [ofText, if_neg (hne '(' (by decide)), if_neg (hne ')' (by decide)),
      if_neg (hne ';' (by decide)), (Token.not_blank_of_isSymbolPart hc).1]
    rfl
  cases item with
  | blank c =>
    have hne : ∀ d, Text.isBlank d = false → c ≠ d := fun d hd =>
      beq_eq_false_iff_ne.1 (Token.bne_of_isBlank h hd)
    rw [text, ofText, if_neg (hne '(' (by decide)), if_neg (hne ')' (by decide)),
      if_neg (hne ';' (by decide))]
    exact if_pos h
  | comment body | opening | closing => rfl
  | sym first more =>
    rw [text, hword first more (Token.isSymbolPart_of_start (.inr h.1)), if_pos h.1]
  | int digits =>
    obtain ⟨c, more, rfl⟩ := List.exists_cons_of_ne_nil h.1
    have hc := h.2.1 c (List.mem_cons_self ..)
    have hstart : ¬ Token.isSymbolStart c = true := by
      intro hstart
      rw [Token.not_isDigit_of_isSymbolStart hstart] at hc
      cases hc
    have hx : ¬ more.head? = some 'x' := by
      intro hx
      have := h.2.1 'x' (List.mem_cons_of_mem _ (List.mem_of_mem_head? hx))
      exact absurd this (by decide)
    rw [text, hword c more (Token.isSymbolPart_of_start (.inl hc)), if_neg hstart, if_neg hx]
  | hex digits => rfl

/-- **A text is cut in at most one way.** -/
theorem Fit.unique {items items' : List Item} (h : Fit items) (h' : Fit items')
    (htext : items.flatMap text = items'.flatMap text) : items = items' := by
  have hne : ∀ {item : Item} {rest : List Char}, item.WellFormed → item.text ++ rest ≠ [] := by
    intro item rest hitem hnil
    obtain ⟨c, more, hcons, -, -⟩ := hitem.taken
    rw [hcons] at hnil
    cases hnil
  induction items generalizing items' with
  | nil =>
    cases items' with
    | nil => rfl
    | cons item' items' => exact absurd htext.symm (hne h'.1)
  | cons item items ih =>
    cases items' with
    | nil => exact absurd htext (hne h.1)
    | cons item' items' =>
      -- both items are as long as the run that goes on from the same first character
      obtain ⟨c, more, hcons, -, htake⟩ := h.1.taken
      obtain ⟨c', more', hcons', -, htake'⟩ := h'.1.taken
      rw [List.flatMap_cons, List.flatMap_cons, hcons, hcons', List.cons_append,
        List.cons_append] at htext
      obtain ⟨rfl, hrests⟩ := List.cons.inj htext
      have hmore : more = more' := by
        rw [← htake _ h.2.1, ← htake' _ h'.2.1, hrests]
      subst hmore
      have hitem : item = item' := by
        rw [← h.1.ofText_text, ← h'.1.ofText_text, hcons, hcons']
      rw [hitem, ih h.2.2 h'.2.2 (List.append_cancel_left hrests)]

theorem scanFrom_separator {item : Item} {rest : List Char} (hitem : item.WellFormed)
    (hends : item.Ends rest) (hkind : item.kind? = none) (pos : Position) (count : Nat)
    (found : List Token) :
    Token.scanFrom .wrap pos count found (item.text ++ rest)
      = Token.scanFrom .wrap (pos.advance item.text) count found rest := by
  obtain ⟨c, more, htext, htoken, htake⟩ := hitem.taken
  rw [htext, List.cons_append, Token.scanFrom, htake rest hends, htoken, hkind,
    Token.passed_ok, Position.move_wrap, List.drop_left]

theorem scanFrom_lexeme {item : Item} {rest : List Char} {k : TokenKind} (hitem : item.WellFormed)
    (hends : item.Ends rest) (hkind : item.kind? = some k) (pos : Position) (count : Nat)
    (found : List Token) :
    Token.scanFrom .wrap pos count found (item.text ++ rest)
      = if Token.maxCount < count + 1 then .error (.lex .tooManyTokens pos)
        else Token.scanFrom .wrap (pos.advance item.text) (count + 1) (⟨k, pos⟩ :: found) rest := by
  obtain ⟨c, more, htext, htoken, htake⟩ := hitem.taken
  rw [htext, List.cons_append]
  exact Token.scanFrom_item (htake rest hends) (hkind ▸ htoken) pos count found

/-- The lexemes among items. -/
def lexemes (items : List Item) : List Item :=
  items.filter (·.kind?.isSome)

theorem lexemes_of_none {item : Item} (h : item.kind? = none) (items : List Item) :
    lexemes (item :: items) = lexemes items :=
  List.filter_cons_of_neg (by rw [h]; decide)

theorem lexemes_of_some {item : Item} {k : TokenKind} (h : item.kind? = some k)
    (items : List Item) : lexemes (item :: items) = item :: lexemes items :=
  List.filter_cons_of_pos (by rw [h]; rfl)

/-- **Scanning a text that is cut into items** gives the tokens of its items, unless they are too
many. -/
theorem Fit.scanFrom_eq_ok {items : List Item} (h : Fit items) (before : List Char) {count : Nat}
    (hcount : count ≤ Token.maxCount) (found ts : List Token) :
    Token.scanFrom .wrap (.after before) count found (items.flatMap text) = .ok ts ↔
      count + (lexemes items).length ≤ Token.maxCount
        ∧ ts = found.reverse ++ tokens before items := by
  induction items generalizing before count found with
  | nil =>
    rw [List.flatMap_nil, Token.scanFrom, List.reverse_cons]
    exact ⟨fun h => ⟨hcount, (Except.ok.inj h).symm⟩, fun h => congrArg _ h.2.symm⟩
  | cons item items ih =>
    obtain ⟨hitem, hends, hrest⟩ := h
    rw [List.flatMap_cons]
    cases hkind : item.kind? with
    | none =>
      rw [scanFrom_separator hitem hends hkind, Position.advance_after, ih hrest _ hcount, tokens,
        hkind, lexemes_of_none hkind]
      rfl
    | some k =>
      rw [scanFrom_lexeme hitem hends hkind, lexemes_of_some hkind, List.length_cons]
      by_cases hfull : Token.maxCount < count + 1
      · rw [if_pos hfull]
        exact ⟨fun h => (by cases h), fun h => absurd h.1 (by omega)⟩
      · rw [if_neg hfull, Position.advance_after, ih hrest _ (by omega), tokens, hkind,
          List.reverse_cons, List.append_assoc, Nat.add_assoc, Nat.add_comm 1]
        rfl

/-- **A text that is scanned is cut into items.** -/
theorem cuts_of_scanFrom {pos : Position} {count : Nat} {found ts : List Token} {cs : List Char}
    (h : Token.scanFrom .wrap pos count found cs = .ok ts) : ∃ items, Cuts cs items := by
  -- one item more in front, whether it stands for a token or not
  have hcons : ∀ (c : Char) (cs : List Char) (kind? : Option TokenKind),
      Token.ofItem? c (Token.itemRest c cs) = .ok kind? →
      (∃ items, Cuts (cs.drop (Token.itemRest c cs).length) items) →
      ∃ items, Cuts (c :: cs) items := by
    intro c cs kind? hitem ⟨items, hrest, hfit⟩
    obtain ⟨item, hitem, htext, -, hends⟩ := exists_of_ofItem? hitem
    refine ⟨item :: items, ?_, hitem, hrest ▸ hends, hfit⟩
    rw [List.flatMap_cons, htext, hrest, List.cons_append,
      List.prefix_iff_eq_append.1 (itemRest_isPrefix c cs)]
  fun_induction Token.scanFrom .wrap pos count found cs with
  | case1 => exact ⟨[], rfl, trivial⟩
  | case2 => cases h
  | case3 => cases h
  | case4 pos count found c cs more kind? rest after hitem hmove ih =>
    exact hcons c cs none hitem (ih h)
  | case5 => cases h
  | case6 pos count found c cs more kind? rest after k hitem hmove hfull ih =>
    exact hcons c cs (some k) hitem (ih h)

theorem map_kind_tokens (before : List Char) (items : List Item) :
    (tokens before items).map Token.kind = (lexemes items).filterMap kind? ++ [.eof] := by
  induction items generalizing before with
  | nil => rfl
  | cons item items ih =>
    rw [tokens, List.map_append, ih]
    cases hkind : item.kind? with
    | none =>
      rw [lexemes_of_none hkind]
      rfl
    | some k =>
      rw [lexemes_of_some hkind, List.filterMap_cons_some hkind]
      rfl

end Item

namespace Token

theorem passed_cases (item : List Char) (kind? : Except LexFault (Option TokenKind)) :
    (∃ c, kind? = .error (.invalidChar c)) ∨ passed item kind? = item := by
  unfold passed
  split
  · exact .inl ⟨_, rfl⟩
  · exact .inr rfl

theorem prefix_append_cases {α : Type} {p xs ys : List α} (h : p <+: xs ++ ys) :
    p <+: xs ∨ ∃ q, q <+: ys ∧ p = xs ++ q := by
  rcases List.prefix_or_prefix_of_prefix h (List.prefix_append xs ys) with hp | ⟨q, rfl⟩
  · exact .inl hp
  · exact .inr ⟨q, (List.prefix_append_right_inj xs).1 h, rfl⟩

/-- What scanning `cs` behind `before` gives where an overflow stops the run, beside what it gives
where the counters go round: the same, and then every place in a text that is scanned to its end is
in range; or a stop, and then some place is not. -/
def Traps (before cs : List Char) (x y : Except Fault (List Token)) : Prop :=
  (x = y ∧ ∀ ts, y = .ok ts → ∀ p, p <+: cs → Position.Counted (before ++ p))
    ∨ x = .error (.stop .overflow) ∧ ∃ p, p <+: cs ∧ ¬Position.Counted (before ++ p)

theorem traps_error (before cs : List Char) (f : Fault) :
    Traps before cs (.error f) (.error f) :=
  .inl ⟨rfl, fun _ h => (by cases h)⟩

/-- Behind an item whose places are in range. -/
theorem Traps.behind {before item rest : List Char} {x y : Except Fault (List Token)}
    (hitem : ∀ p, p <+: item → Position.Counted (before ++ p))
    (h : Traps (before ++ item) rest x y) : Traps before (item ++ rest) x y := by
  rcases h with ⟨hxy, hall⟩ | ⟨hx, p, hp, hnot⟩
  · refine .inl ⟨hxy, fun ts hts p hp => ?_⟩
    rcases prefix_append_cases hp with hp | ⟨q, hq, rfl⟩
    · exact hitem p hp
    · rw [← List.append_assoc]
      exact hall ts hts q hq
  · rw [List.append_assoc] at hnot
    exact .inr ⟨hx, item ++ p, (List.prefix_append_right_inj item).2 hp, hnot⟩

/-- **Scanning where an overflow stops the run** is scanning with counters that go round, as long as
they are in range. -/
theorem scanFrom_trap {before : List Char} (h : Position.Counted before) (count : Nat)
    (found : List Token) (cs : List Char) :
    Traps before cs (scanFrom .trap (.after before) count found cs)
      (scanFrom .wrap (.after before) count found cs) := by
  -- the text behind an item is shorter
  induction hn : cs.length using Nat.strongRecOn generalizing before count found cs with
  | ind n ih =>
  subst hn
  cases cs with
  | nil =>
    refine .inl ⟨by rw [scanFrom, scanFrom], fun _ _ p hp => ?_⟩
    rwa [List.prefix_nil.1 hp, List.append_nil]
  | cons c cs =>
    have hcs : c :: itemRest c cs ++ cs.drop (itemRest c cs).length = c :: cs :=
      congrArg (c :: ·) (List.prefix_iff_eq_append.1 (Item.itemRest_isPrefix c cs))
    have hshort : (cs.drop (itemRest c cs).length).length < (c :: cs).length := by
      rw [List.length_drop, List.length_cons]
      omega
    rw [scanFrom, scanFrom, Position.move_wrap]
    rcases passed_cases (c :: itemRest c cs) (ofItem? c (itemRest c cs)) with ⟨d, hd⟩ | hpassed
    · rw [hd]
      exact traps_error _ _ _
    rw [hpassed]
    rcases Position.move_after h (c :: itemRest c cs) with ⟨hmove, hall⟩ | ⟨hmove, p, hp, hnot⟩
    · rw [hmove, Position.advance_after]
      have hnext := fun count found =>
        Traps.behind hall (ih _ hshort (hall _ (List.prefix_refl _)) count found _ rfl)
      rw [hcs] at hnext
      cases ofItem? c (itemRest c cs) with
      | error cause => exact traps_error _ _ _
      | ok kind? =>
        cases kind? with
        | none => exact hnext count found
        | some k =>
          dsimp only
          by_cases hfull : maxCount < count + 1
          · rw [if_pos hfull, if_pos hfull]
            exact traps_error _ _ _
          · rw [if_neg hfull, if_neg hfull]
            exact hnext (count + 1) _
    · rw [hmove]
      exact .inr ⟨rfl, p, hcs ▸ hp.trans (List.prefix_append _ _), hnot⟩

/-- Scanning a text that is cut, through the kinds of its tokens. -/
theorem kinds_scan {text : List Char} {items : List Item} (h : Item.Cuts text items) :
    (scan text).toOption.map (List.map kind)
      = if (Item.lexemes items).length ≤ maxCount
        then some ((Item.lexemes items).filterMap Item.kind? ++ [.eof]) else none := by
  obtain ⟨rfl, hfit⟩ := h
  have hscan : ∀ ts, scan (items.flatMap Item.text) = .ok ts ↔ _ :=
    hfit.scanFrom_eq_ok [] (Nat.zero_le _) []
  rw [Nat.zero_add] at hscan
  by_cases hfew : (Item.lexemes items).length ≤ maxCount
  · rw [if_pos hfew, (hscan _).2 ⟨hfew, rfl⟩, ← Item.map_kind_tokens []]
    rfl
  · rw [if_neg hfew]
    cases hts : scan (items.flatMap Item.text) with
    | error fault => rfl
    | ok ts => exact absurd ((hscan ts).1 hts).1 hfew

end Token

end Arithmetization
