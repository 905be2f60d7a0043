import Arithmetization.Expr.Text
import Arithmetization.Token
import Mathlib.Data.List.Forall2

/-!
How tokens are spelled.

`Token.Reads cs ks rest` says that the characters `cs` begin with lexemes of the kinds `ks` and that
`rest` is what follows them. Every word in it ends where the text goes on with a parenthesis, a
blank or nothing, so scanning cannot run on: it takes exactly these tokens and is left with `rest`
(`Token.Reads.scanFrom_eq`). `Token.Spells text ks` is the same for a text by itself, whatever comes
after it. It is closed under putting texts together, which is how canonical texts are made.

Two measures of a text are those that scanning and reading are limited by: the number of its lexemes
and the greatest number of parentheses that are open at once. On a text that is spelled they are the
number of tokens and the nesting of their parentheses.
-/

set_option autoImplicit false

namespace Arithmetization

namespace Text

/-! ## Characters -/

/-- Whether a character is one of the two parentheses. -/
def isParen (c : Char) : Bool :=
  c == '(' || c == ')'

theorem isParen_eq_false {c : Char} :
    isParen c = false ↔ (c == '(') = false ∧ (c == ')') = false :=
  Bool.or_eq_false_iff

theorem isParen_of_isBlank {c : Char} (h : isBlank c = true) : isParen c = false := by
  by_contra hparen
  simp only [isParen, Bool.not_eq_false, Bool.or_eq_true, beq_iff_eq] at hparen
  rcases hparen with rfl | rfl <;> revert h <;> decide

theorem isDigit_iff {c : Char} : isDigit c = true ↔ 48 ≤ c.toNat ∧ c.toNat ≤ 57 := by
  rw [isDigit, Bool.and_eq_true, decide_eq_true_iff, decide_eq_true_iff]
  exact Iff.rfl

theorem isBlank_iff {c : Char} :
    isBlank c = true ↔ ∃ range ∈ blankRanges, range.1 ≤ c.toNat ∧ c.toNat ≤ range.2 := by
  rw [isBlank, List.any_eq_true]
  simp only [Bool.and_eq_true, decide_eq_true_iff]

end Text

namespace Token

theorem isSymbolStart_iff {c : Char} :
    isSymbolStart c = true ↔
      (97 ≤ c.toNat ∧ c.toNat ≤ 122) ∨ (65 ≤ c.toNat ∧ c.toNat ≤ 90) ∨ c = '_' ∨ c = '$' := by
  simp only [isSymbolStart, Bool.or_eq_true, Bool.and_eq_true, decide_eq_true_iff, beq_iff_eq,
    or_assoc]
  exact Iff.rfl

/-- Symbols and numbers are made of other characters than blanks and parentheses. -/
theorem not_blank_of_isSymbolPart {c : Char} (h : isSymbolPart c = true) :
    Text.isBlank c = false ∧ Text.isParen c = false := by
  have hcode : c.toNat = 36 ∨ c.toNat = 45 ∨ c.toNat = 46 ∨ (48 ≤ c.toNat ∧ c.toNat ≤ 57)
      ∨ (65 ≤ c.toNat ∧ c.toNat ≤ 122) := by
    simp only [isSymbolPart, Bool.or_eq_true, beq_iff_eq, Text.isDigit_iff, isSymbolStart_iff] at h
    rcases h with ((((h | h | rfl | rfl) | h) | rfl) | rfl)
    all_goals first | decide | omega
  constructor
  · by_contra hblank
    obtain ⟨range, hrange, hlo, hhi⟩ := Text.isBlank_iff.1 (eq_true_of_ne_false hblank)
    simp only [Text.blankRanges, List.mem_cons, List.not_mem_nil, or_false] at hrange
    rcases hrange with rfl | rfl | rfl | rfl | rfl | rfl | rfl | rfl | rfl | rfl <;> omega
  · by_contra hparen
    simp only [Text.isParen, Bool.not_eq_false, Bool.or_eq_true, beq_iff_eq] at hparen
    rcases hparen with rfl | rfl <;> simp at hcode

theorem not_isDigit_of_isSymbolStart {c : Char} (h : isSymbolStart c = true) :
    Text.isDigit c = false := by
  by_contra hdigit
  have hcode := Text.isDigit_iff.1 (eq_true_of_ne_false hdigit)
  rcases isSymbolStart_iff.1 h with h | h | rfl | rfl
  · omega
  · omega
  · revert hcode
    decide
  · revert hcode
    decide

theorem isSymbolPart_of_start {c : Char} (h : Text.isDigit c = true ∨ isSymbolStart c = true) :
    isSymbolPart c = true := by
  simp only [isSymbolPart, Bool.or_eq_true]
  rcases h with h | h
  · exact .inl (.inl (.inr h))
  · exact .inl (.inl (.inl h))

end Token

/-! ## Measures of a text -/

namespace Text

/-- The lexemes of a text whose first characters, if `inWord`, go on with a word that is counted
already. -/
def lexemesFrom (inWord : Bool) : List Char → Nat
  | [] => 0
  | c :: cs =>
    if isParen c then 1 + lexemesFrom false cs
    else if isBlank c then lexemesFrom false cs
    else (if inWord then 0 else 1) + lexemesFrom true cs

/-- The number of parentheses and of words between them and between blanks. -/
def lexemes (cs : List Char) : Nat :=
  lexemesFrom false cs

/-- The number of open parentheses after a character. -/
def openAfter (opened : Nat) (c : Char) : Nat :=
  if c == '(' then opened + 1 else if c == ')' then opened - 1 else opened

/-- The greatest number of parentheses that are open at once in a text, of which `opened` were
opened before it. -/
def nestingFrom (opened : Nat) : List Char → Nat
  | [] => opened
  | c :: cs => max opened (nestingFrom (openAfter opened c) cs)

def nesting (cs : List Char) : Nat :=
  nestingFrom 0 cs

/-- A text that no word in front of it runs into. -/
def Delimited (cs : List Char) : Prop :=
  ∀ c ∈ cs.head?, isParen c = true ∨ isBlank c = true

theorem delimited_nil : Delimited [] := by
  intro c hc
  cases hc

theorem delimited_cons {c : Char} {cs : List Char} (h : isParen c = true ∨ isBlank c = true) :
    Delimited (c :: cs) := by
  intro d hd
  obtain rfl := Option.some.inj hd
  exact h

theorem Delimited.append {cs ds : List Char} (h : Delimited cs) (h' : Delimited ds) :
    Delimited (cs ++ ds) := by
  cases cs with
  | nil => exact h'
  | cons c cs => exact delimited_cons (h c rfl)

theorem Delimited.notSymbolPart {cs : List Char} (h : Delimited cs) :
    ∀ c ∈ cs.head?, Token.isSymbolPart c = false := by
  intro c hc
  by_contra hpart
  obtain ⟨hblank, hparen⟩ := Token.not_blank_of_isSymbolPart (eq_true_of_ne_false hpart)
  rcases h c hc with hc | hc
  · rw [hparen] at hc
    cases hc
  · rw [hblank] at hc
    cases hc

end Text

/-! ## Lexemes -/

namespace Token

/-- A number, a byte string or a symbol and the token that it spells. -/
inductive IsWord : List Char → TokenKind → Prop
  | int {w : List Char} {n : Nat} (hw : Text.decimal? w = some n) (hn : n < intBound) :
      IsWord w (.int n)
  | hex {digits : List Char} {bytes : List UInt8} (hw : Text.hexBytes? digits = some bytes)
      (hparts : ∀ c ∈ digits, isSymbolPart c = true) : IsWord ('0' :: 'x' :: digits) (.hex bytes)
  | sym {c : Char} {more : List Char} (hc : isSymbolStart c = true)
      (hparts : ∀ c ∈ more, isSymbolPart c = true) :
      IsWord (c :: more) (.sym (String.ofList (c :: more)))

theorem isDigit_of_decimal? {w : List Char} {n : Nat} (h : Text.decimal? w = some n) :
    w ≠ [] ∧ ∀ c ∈ w, Text.isDigit c = true := by
  unfold Text.decimal? at h
  split at h
  · cases h
  · next hdigits => simpa using hdigits

/-- Digits alone are no byte string. -/
theorem number_of_decimal? {w : List Char} {n : Nat} (hw : Text.decimal? w = some n)
    (hn : n < intBound) : number w = .ok (.int n) := by
  have hdigits := (isDigit_of_decimal? hw).2
  unfold number
  split
  · next digits =>
    have hx : Text.isDigit 'x' = true := hdigits 'x' (by simp)
    exact absurd hx (by decide)
  · rw [hw]
    exact if_pos hn

/-- An item that is no parenthesis, comment or blank is a number or a symbol. -/
theorem ofItem?_of_isSymbolPart {c : Char} (h : isSymbolPart c = true) (more : List Char) :
    ofItem? c more
      = if Text.isDigit c then some <$> number (c :: more)
        else if isSymbolStart c then .ok (some (.sym (String.ofList (c :: more))))
        else .error (.invalidChar c) := by
  obtain ⟨hblank, hparen⟩ := not_blank_of_isSymbolPart h
  have hcomment : (c == ';') = false := by
    refine beq_eq_false_iff_ne.2 ?_
    rintro rfl
    revert h
    decide
  rw [Text.isParen_eq_false] at hparen
  rw [ofItem?, hparen.1, hparen.2, hcomment, hblank]
  rfl

namespace IsWord

variable {w : List Char} {k : TokenKind}

theorem parts (h : IsWord w k) : ∀ c ∈ w, isSymbolPart c = true := by
  cases h with
  | int hw _ => exact fun c hc => isSymbolPart_of_start (.inl ((isDigit_of_decimal? hw).2 c hc))
  | hex _ hparts =>
    refine List.forall_mem_cons.2 ⟨by decide, List.forall_mem_cons.2 ⟨by decide, hparts⟩⟩
  | sym hc hparts => exact List.forall_mem_cons.2 ⟨isSymbolPart_of_start (.inr hc), hparts⟩

/-- A word is one item, which stands for its token. -/
theorem item (h : IsWord w k) :
    ∃ c more, w = c :: more ∧ (Text.isDigit c = true ∨ isSymbolStart c = true)
      ∧ ofItem? c more = .ok (some k) := by
  cases h with
  | @int w n hw hn =>
    obtain ⟨hne, hdigits⟩ := isDigit_of_decimal? hw
    obtain ⟨c, more, rfl⟩ := List.exists_cons_of_ne_nil hne
    have hc := hdigits c (List.mem_cons_self ..)
    refine ⟨c, more, rfl, .inl hc, ?_⟩
    rw [ofItem?_of_isSymbolPart (isSymbolPart_of_start (.inl hc)), hc, number_of_decimal? hw hn]
    rfl
  | @hex digits bytes hw _ =>
    refine ⟨'0', 'x' :: digits, rfl, .inl (by decide), ?_⟩
    rw [ofItem?_of_isSymbolPart (by decide), number, hw]
    rfl
  | @sym c more hc _ =>
    refine ⟨c, more, rfl, .inr hc, ?_⟩
    rw [ofItem?_of_isSymbolPart (isSymbolPart_of_start (.inr hc)), not_isDigit_of_isSymbolStart hc,
      hc]
    rfl

end IsWord

/-- The characters `cs` begin with lexemes of the kinds `ks`, and `rest` follows them. -/
inductive Reads : List Char → List TokenKind → List Char → Prop
  | done {rest : List Char} : Reads rest [] rest
  | blank {c : Char} {cs rest : List Char} {ks : List TokenKind} (hc : Text.isBlank c = true)
      (h : Reads cs ks rest) : Reads (c :: cs) ks rest
  | opening {cs rest : List Char} {ks : List TokenKind} (h : Reads cs ks rest) :
      Reads ('(' :: cs) (.opening :: ks) rest
  | closing {cs rest : List Char} {ks : List TokenKind} (h : Reads cs ks rest) :
      Reads (')' :: cs) (.closing :: ks) rest
  | word {w cs rest : List Char} {k : TokenKind} {ks : List TokenKind} (hw : IsWord w k)
      (hcs : Text.Delimited cs) (h : Reads cs ks rest) : Reads (w ++ cs) (k :: ks) rest

theorem Reads.trans {cs ds es : List Char} {ks ls : List TokenKind} (h : Reads cs ks ds)
    (h' : Reads ds ls es) : Reads cs (ks ++ ls) es := by
  induction h with
  | done => exact h'
  | blank hc _ ih => exact .blank hc (ih h')
  | opening _ ih => exact .opening (ih h')
  | closing _ ih => exact .closing (ih h')
  | word hw hcs _ ih => exact .word hw hcs (ih h')

/-! ## Scanning -/

/-- A run of `p` stops at the first character without it. -/
theorem takeWhile_append_of_head {p : Char → Bool} {cs ds : List Char} (hcs : ∀ c ∈ cs, p c = true)
    (hds : ∀ c ∈ ds.head?, p c = false) : (cs ++ ds).takeWhile p = cs := by
  rw [List.takeWhile_append_of_pos hcs]
  cases ds with
  | nil => rw [List.takeWhile_nil, List.append_nil]
  | cons d ds =>
    rw [List.takeWhile_cons_of_neg (Bool.not_eq_true _ ▸ hds d rfl), List.append_nil]

theorem itemRest_word {c : Char} {more cs : List Char}
    (hc : Text.isDigit c = true ∨ isSymbolStart c = true)
    (hmore : ∀ d ∈ more, isSymbolPart d = true) (hcs : ∀ d ∈ cs.head?, isSymbolPart d = false) :
    itemRest c (more ++ cs) = more := by
  have hsemicolon : (c == ';') = false := by
    by_contra h
    obtain rfl := beq_iff_eq.1 (eq_true_of_ne_false h)
    revert hc
    decide
  have hstart : (Text.isDigit c || isSymbolStart c) = true := by simpa using hc
  rw [itemRest, hsemicolon, if_neg Bool.false_ne_true, if_pos hstart]
  exact takeWhile_append_of_head hmore hcs

theorem bne_of_isBlank {c d : Char} (hc : Text.isBlank c = true) (hd : Text.isBlank d = false) :
    (c == d) = false := by
  refine beq_eq_false_iff_ne.2 ?_
  rintro rfl
  rw [hc] at hd
  cases hd

/-- A blank is an item of its own. -/
theorem itemRest_blank {c : Char} (hc : Text.isBlank c = true) (cs : List Char) :
    itemRest c cs = [] := by
  have hpart : isSymbolPart c = false := by
    by_contra h
    rw [(not_blank_of_isSymbolPart (eq_true_of_ne_false h)).1] at hc
    cases hc
  have hstart : (Text.isDigit c || isSymbolStart c) = false := by
    simp only [isSymbolPart, Bool.or_eq_false_iff] at hpart
    rw [hpart.1.1.2, hpart.1.1.1]
    rfl
  rw [itemRest, bne_of_isBlank hc (d := ';') (by decide), hstart]
  rfl

theorem ofItem?_blank {c : Char} (hc : Text.isBlank c = true) (more : List Char) :
    ofItem? c more = .ok none := by
  rw [ofItem?, bne_of_isBlank hc (d := '(') (by decide), bne_of_isBlank hc (d := ')') (by decide),
    hc, Bool.or_true]
  rfl

theorem scanFrom_blank {c : Char} (hc : Text.isBlank c = true) (pos : Position) (count : Nat)
    (found : List Token) (cs : List Char) :
    scanFrom .wrap pos count found (c :: cs) = scanFrom .wrap (pos.next c) count found cs := by
  rw [scanFrom, itemRest_blank hc, ofItem?_blank hc, passed_ok, Position.move_wrap]
  rfl

/-- An item that stands for a token is taken, unless there are as many tokens as may be. -/
theorem scanFrom_item {c : Char} {more cs : List Char} {k : TokenKind}
    (hrest : itemRest c (more ++ cs) = more) (hitem : ofItem? c more = .ok (some k))
    (pos : Position) (count : Nat) (found : List Token) :
    scanFrom .wrap pos count found (c :: (more ++ cs))
      = if maxCount < count + 1 then .error (.lex .tooManyTokens pos)
        else scanFrom .wrap (pos.advance (c :: more)) (count + 1) (⟨k, pos⟩ :: found) cs := by
  rw [scanFrom, hrest, hitem, passed_ok, Position.move_wrap, List.drop_left]

theorem scanFrom_word {w : List Char} {k : TokenKind} (hw : IsWord w k) {cs : List Char}
    (hcs : Text.Delimited cs) (pos : Position) (count : Nat) (found : List Token) :
    scanFrom .wrap pos count found (w ++ cs)
      = if maxCount < count + 1 then .error (.lex .tooManyTokens pos)
        else scanFrom .wrap (pos.advance w) (count + 1) (⟨k, pos⟩ :: found) cs := by
  obtain ⟨c, more, rfl, hstart, hitem⟩ := hw.item
  have hmore : ∀ d ∈ more, isSymbolPart d = true := fun d hd =>
    hw.parts d (List.mem_cons_of_mem _ hd)
  exact scanFrom_item (itemRest_word hstart hmore hcs.notSymbolPart) hitem pos count found

theorem scanFrom_paren {c : Char} {k : TokenKind}
    (hc : (c = '(' ∧ k = .opening) ∨ (c = ')' ∧ k = .closing)) (cs : List Char) (pos : Position)
    (count : Nat) (found : List Token) :
    scanFrom .wrap pos count found (c :: cs)
      = if maxCount < count + 1 then .error (.lex .tooManyTokens pos)
        else scanFrom .wrap (pos.next c) (count + 1) (⟨k, pos⟩ :: found) cs := by
  have hrest : itemRest c ([] ++ cs) = [] := by
    rcases hc with ⟨rfl, -⟩ | ⟨rfl, -⟩ <;> rfl
  have hitem : ofItem? c [] = .ok (some k) := by
    rcases hc with ⟨rfl, rfl⟩ | ⟨rfl, rfl⟩ <;> rfl
  exact scanFrom_item hrest hitem pos count found

/-- **Scanning takes the lexemes that a text begins with** and goes on with the rest, if there are
not too many of them. -/
theorem Reads.scanFrom_eq {cs rest : List Char} {ks : List TokenKind} (h : Reads cs ks rest)
    (count : Nat) (hcount : count + ks.length ≤ maxCount) (pos : Position) (found : List Token) :
    ∃ (ts : List Token) (pos' : Position), ts.map Token.kind = ks
      ∧ scanFrom .wrap pos count found cs
        = scanFrom .wrap pos' (count + ks.length) (ts.reverse ++ found) rest := by
  induction h generalizing count pos found with
  | done => exact ⟨[], pos, rfl, rfl⟩
  | blank hc _ ih =>
    rw [scanFrom_blank hc]
    exact ih count hcount _ found
  | @opening cs rest ks _ ih =>
    rw [List.length_cons] at hcount
    obtain ⟨ts, pos', hts, heq⟩ := ih (count + 1) (by omega) (pos.next '(')
      (⟨.opening, pos⟩ :: found)
    refine ⟨⟨.opening, pos⟩ :: ts, pos', by rw [List.map_cons, hts], ?_⟩
    rw [scanFrom_paren (.inl ⟨rfl, rfl⟩), if_neg (by omega), heq, List.length_cons,
      List.reverse_cons, List.append_assoc, Nat.add_right_comm, Nat.add_assoc]
    rfl
  | @closing cs rest ks _ ih =>
    rw [List.length_cons] at hcount
    obtain ⟨ts, pos', hts, heq⟩ := ih (count + 1) (by omega) (pos.next ')')
      (⟨.closing, pos⟩ :: found)
    refine ⟨⟨.closing, pos⟩ :: ts, pos', by rw [List.map_cons, hts], ?_⟩
    rw [scanFrom_paren (.inr ⟨rfl, rfl⟩), if_neg (by omega), heq, List.length_cons,
      List.reverse_cons, List.append_assoc, Nat.add_right_comm, Nat.add_assoc]
    rfl
  | @word w cs rest k ks hw hcs _ ih =>
    rw [List.length_cons] at hcount
    obtain ⟨ts, pos', hts, heq⟩ := ih (count + 1) (by omega) (pos.advance w)
      (⟨k, pos⟩ :: found)
    refine ⟨⟨k, pos⟩ :: ts, pos', by rw [List.map_cons, hts], ?_⟩
    rw [scanFrom_word hw hcs, if_neg (by omega), heq, List.length_cons, List.reverse_cons,
      List.append_assoc, Nat.add_right_comm, Nat.add_assoc]
    rfl

/-- A text made of lexemes has these tokens and the closing one. -/
theorem Reads.scan {cs : List Char} {ks : List TokenKind} (h : Reads cs ks [])
    (hcount : ks.length ≤ maxCount) :
    ∃ ts, ts.map Token.kind = ks ++ [.eof] ∧ Token.scan cs = .ok ts := by
  obtain ⟨ts, pos, hts, heq⟩ := h.scanFrom_eq 0 (by omega) .start []
  refine ⟨ts ++ [⟨.eof, pos⟩], by rw [List.map_append, hts]; rfl, ?_⟩
  rw [Token.scan, heq, scanFrom, List.append_nil, List.reverse_cons, List.reverse_reverse]

/-- One lexeme of a text with too many: it is the first one over the limit, or the others are still
too many. -/
theorem exists_tooManyTokens {count n : Nat} (hn : maxCount < count + (n + 1)) {pos : Position}
    {x : Except Fault (List Token)}
    (hx : count + 1 ≤ maxCount → maxCount < count + 1 + n →
      ∃ pos', x = .error (.lex .tooManyTokens pos')) :
    ∃ pos', (if maxCount < count + 1 then .error (.lex .tooManyTokens pos) else x)
      = .error (.lex .tooManyTokens pos') := by
  by_cases hlast : maxCount < count + 1
  · exact ⟨pos, if_pos hlast⟩
  · rw [if_neg hlast]
    exact hx (by omega) (by omega)

theorem Reads.scanFrom_eq_error {cs rest : List Char} {ks : List TokenKind} (h : Reads cs ks rest)
    (count : Nat) (hle : count ≤ maxCount) (hcount : maxCount < count + ks.length) (pos : Position)
    (found : List Token) :
    ∃ pos', scanFrom .wrap pos count found cs = .error (.lex .tooManyTokens pos') := by
  induction h generalizing count pos found with
  | done =>
    rw [List.length_nil] at hcount
    omega
  | blank hc _ ih =>
    rw [scanFrom_blank hc]
    exact ih count hle hcount _ found
  | opening _ ih =>
    rw [scanFrom_paren (.inl ⟨rfl, rfl⟩)]
    exact exists_tooManyTokens hcount fun hle' hcount' => ih (count + 1) hle' hcount' _ _
  | closing _ ih =>
    rw [scanFrom_paren (.inr ⟨rfl, rfl⟩)]
    exact exists_tooManyTokens hcount fun hle' hcount' => ih (count + 1) hle' hcount' _ _
  | word hw hcs _ ih =>
    rw [scanFrom_word hw hcs]
    exact exists_tooManyTokens hcount fun hle' hcount' => ih (count + 1) hle' hcount' _ _

/-- **A text of too many lexemes is refused.** -/
theorem Reads.scan_eq_error {cs : List Char} {ks : List TokenKind} (h : Reads cs ks [])
    (hcount : maxCount < ks.length) :
    ∃ pos, Token.scan cs = .error (.lex .tooManyTokens pos) :=
  h.scanFrom_eq_error 0 (Nat.zero_le _) (by omega) .start []

/-! ## Measures of what is scanned -/

/-- The number of open parentheses after a token. -/
def openAfter (opened : Nat) : TokenKind → Nat
  | .opening => opened + 1
  | .closing => opened - 1
  | _ => opened

/-- The greatest number of parentheses that are open at once among tokens. -/
def nestingFrom (opened : Nat) : List TokenKind → Nat
  | [] => opened
  | k :: ks => max opened (nestingFrom (openAfter opened k) ks)

theorem le_nestingFrom (opened : Nat) (cs : List Char) : opened ≤ Text.nestingFrom opened cs := by
  cases cs with
  | nil => exact Nat.le_refl _
  | cons c cs => exact Nat.le_max_left _ _

/-- Only parentheses change how many are open. -/
theorem nestingFrom_cons {c : Char} (h : Text.isParen c = false) (opened : Nat) (cs : List Char) :
    Text.nestingFrom opened (c :: cs) = Text.nestingFrom opened cs := by
  rw [Text.isParen_eq_false] at h
  rw [Text.nestingFrom, Text.openAfter, h.1, h.2]
  simp only [Bool.false_eq_true, if_false]
  exact Nat.max_eq_right (le_nestingFrom _ _)

theorem IsWord.openAfter {w : List Char} {k : TokenKind} (hw : IsWord w k) (opened : Nat) :
    openAfter opened k = opened := by
  cases hw <;> rfl

theorem IsWord.nestingFrom {w : List Char} {k : TokenKind} (hw : IsWord w k) (opened : Nat)
    (cs : List Char) : Text.nestingFrom opened (w ++ cs) = Text.nestingFrom opened cs := by
  have hparts := hw.parts
  clear hw
  induction w with
  | nil => rfl
  | cons c w ih =>
    rw [List.forall_mem_cons] at hparts
    rw [List.cons_append, nestingFrom_cons (not_blank_of_isSymbolPart hparts.1).2, ih hparts.2]

theorem Reads.nestingFrom_eq {cs rest : List Char} {ks : List TokenKind} (h : Reads cs ks rest)
    (opened : Nat) :
    Text.nestingFrom opened cs
      = max (nestingFrom opened ks) (Text.nestingFrom (ks.foldl openAfter opened) rest) := by
  induction h generalizing opened with
  | @done rest => exact (Nat.max_eq_right (le_nestingFrom opened rest)).symm
  | blank hc _ ih => rw [nestingFrom_cons (Text.isParen_of_isBlank hc), ih]
  | opening _ ih =>
    have hafter : Text.openAfter opened '(' = opened + 1 := rfl
    rw [Text.nestingFrom, hafter, ih, nestingFrom, Nat.max_assoc]
    rfl
  | closing _ ih =>
    have hafter : Text.openAfter opened ')' = opened - 1 := rfl
    rw [Text.nestingFrom, hafter, ih, nestingFrom, Nat.max_assoc]
    rfl
  | @word w cs rest k ks hw _ _ ih =>
    rw [hw.nestingFrom, nestingFrom, List.foldl_cons, hw.openAfter, Nat.max_assoc, ← ih,
      Nat.max_eq_right (le_nestingFrom _ _)]

/-- The nesting of a text made of lexemes is that of its tokens. -/
theorem Reads.nesting_eq {cs : List Char} {ks : List TokenKind} (h : Reads cs ks []) :
    Text.nesting cs = nestingFrom 0 ks := by
  have hle : ∀ (ks : List TokenKind) (opened : Nat),
      ks.foldl openAfter opened ≤ nestingFrom opened ks := by
    intro ks
    induction ks with
    | nil => exact fun opened => Nat.le_refl _
    | cons k ks ih => exact fun opened => Nat.le_trans (ih _) (Nat.le_max_right _ _)
  rw [Text.nesting, h.nestingFrom_eq 0]
  exact Nat.max_eq_left (hle ks 0)

theorem lexemesFrom_parts {w : List Char} (hw : ∀ c ∈ w, isSymbolPart c = true)
    (cs : List Char) : Text.lexemesFrom true (w ++ cs) = Text.lexemesFrom true cs := by
  induction w with
  | nil => rfl
  | cons c w ih =>
    rw [List.forall_mem_cons] at hw
    obtain ⟨hblank, hparen⟩ := not_blank_of_isSymbolPart hw.1
    rw [List.cons_append, Text.lexemesFrom, hparen, hblank]
    simp only [Bool.false_eq_true, if_false, if_true, Nat.zero_add]
    exact ih hw.2

theorem lexemesFrom_delimited {cs : List Char} (h : Text.Delimited cs) :
    Text.lexemesFrom true cs = Text.lexemesFrom false cs := by
  cases cs with
  | nil => rfl
  | cons c cs =>
    rw [Text.lexemesFrom, Text.lexemesFrom]
    rcases h c rfl with hc | hc
    · rw [hc]
      rfl
    · rw [hc]
      simp only [if_true]

/-- A text made of lexemes has as many as it has tokens. -/
theorem Reads.lexemes_eq {cs rest : List Char} {ks : List TokenKind} (h : Reads cs ks rest) :
    Text.lexemes cs = ks.length + Text.lexemes rest := by
  unfold Text.lexemes
  induction h with
  | done => rw [List.length_nil, Nat.zero_add]
  | blank hc _ ih =>
    rw [Text.lexemesFrom, Text.isParen_of_isBlank hc, hc]
    exact ih
  | opening _ ih =>
    have hparen : Text.isParen '(' = true := rfl
    rw [Text.lexemesFrom, hparen, if_pos rfl, ih, List.length_cons]
    omega
  | closing _ ih =>
    have hparen : Text.isParen ')' = true := rfl
    rw [Text.lexemesFrom, hparen, if_pos rfl, ih, List.length_cons]
    omega
  | @word w cs rest k ks hw hcs _ ih =>
    -- the first character of a word counts it, the others go on with it
    have hparts := hw.parts
    obtain ⟨c, more, rfl, -⟩ := hw.item
    rw [List.forall_mem_cons] at hparts
    obtain ⟨hblank, hparen⟩ := not_blank_of_isSymbolPart hparts.1
    rw [List.cons_append, Text.lexemesFrom, hparen, hblank, lexemesFrom_parts hparts.2,
      lexemesFrom_delimited hcs, ih, List.length_cons]
    simp only [Bool.false_eq_true, if_false]
    omega

/-! ## What is scanned -/

/-- Numbers are below the bound and byte strings are not empty. -/
def Plain : TokenKind → Prop
  | .int n => n < intBound
  | .hex bytes => bytes ≠ []
  | _ => True

theorem plain_of_hexBytes? {digits : List Char} {bytes : List UInt8}
    (h : Text.hexBytes? digits = some bytes) : bytes ≠ [] := by
  -- at least two digits are left to pair, so there is a first byte
  have hpairs : ∀ ds : List Char, ds ≠ [] → Text.hexPairs? ds ≠ some [] := by
    intro ds hds hnil
    unfold Text.hexPairs? at hnil
    split at hnil
    · exact hds rfl
    · cases hnil
    · split at hnil <;> cases hnil
  rintro rfl
  unfold Text.hexBytes? at h
  split at h
  · cases h
  next hdigits =>
  split at h
  · exact hpairs _ (List.cons_ne_nil _ _) h
  · exact hpairs _ (by simpa using hdigits) h

theorem plain_of_number {w : List Char} {k : TokenKind} (h : number w = .ok k) : Plain k := by
  unfold number at h
  split at h
  · split at h
    · next bytes hbytes =>
      obtain rfl := Except.ok.inj h
      exact plain_of_hexBytes? hbytes
    · cases h
  · split at h
    · split at h
      · next hn =>
        obtain rfl := Except.ok.inj h
        exact hn
      · cases h
    · cases h

theorem plain_of_ofItem? {c : Char} {more : List Char} {k : TokenKind}
    (h : ofItem? c more = .ok (some k)) : Plain k := by
  unfold ofItem? at h
  split at h
  · cases h
    trivial
  split at h
  · cases h
    trivial
  split at h
  · cases h
  split at h
  · cases hnumber : number (c :: more) with
    | error cause =>
      rw [hnumber] at h
      cases h
    | ok k' =>
      rw [hnumber] at h
      cases h
      exact plain_of_number hnumber
  split at h
  · cases h
    trivial
  · cases h

theorem scanFrom_plain {o : Overflow} {pos : Position} {count : Nat} {found : List Token}
    {cs : List Char} {tokens : List Token} (h : scanFrom o pos count found cs = .ok tokens)
    (hfound : ∀ t ∈ found, Plain t.kind) (hlen : found.length = count) (hcount : count ≤ maxCount) :
    (∀ t ∈ tokens, Plain t.kind) ∧ tokens.length ≤ maxCount + 1 := by
  fun_induction scanFrom o pos count found cs with
  | case1 pos count found =>
    obtain rfl := Except.ok.inj h
    constructor
    · intro t ht
      rw [List.mem_reverse, List.mem_cons] at ht
      rcases ht with rfl | ht
      · trivial
      · exact hfound t ht
    · rw [List.length_reverse, List.length_cons]
      omega
  | case2 => cases h
  | case3 => cases h
  | case4 pos count found c cs more kind? rest after hitem hmove ih => exact ih h hfound hlen hcount
  | case5 => cases h
  | case6 pos count found c cs more kind? rest after kind hitem hmove hmax ih =>
    refine ih h ?_ ?_ ?_
    · rw [List.forall_mem_cons]
      exact ⟨plain_of_ofItem? hitem, hfound⟩
    · rw [List.length_cons, hlen]
    · omega

/-- **What a scanned text consists of.** -/
theorem scan_plain {cs : List Char} {tokens : List Token} (h : scan cs = .ok tokens) :
    (∀ t ∈ tokens, Plain t.kind) ∧ tokens.length ≤ maxCount + 1 :=
  scanFrom_plain h (by simp) rfl (Nat.zero_le _)

/-! ## Texts made of words -/

/-- A text that spells tokens, whatever follows it. -/
def Spells (text : List Char) (ks : List TokenKind) : Prop :=
  ∀ rest, Text.Delimited rest → Reads (text ++ rest) ks rest

namespace Spells

variable {cs ds : List Char} {ks ls : List TokenKind}

theorem reads (h : Spells cs ks) : Reads cs ks [] := by
  have h' := h [] Text.delimited_nil
  rwa [List.append_nil] at h'

theorem nil : Spells [] [] :=
  fun _ _ => .done

theorem append (h : Spells cs ks) (h' : Spells ds ls) (hds : Text.Delimited ds) :
    Spells (cs ++ ds) (ks ++ ls) := by
  intro rest hrest
  rw [List.append_assoc]
  exact (h _ (hds.append hrest)).trans (h' rest hrest)

theorem blank {c : Char} (hc : Text.isBlank c = true) (h : Spells cs ks) : Spells (c :: cs) ks :=
  fun rest hrest => .blank hc (h rest hrest)

theorem word {w : List Char} {k : TokenKind} (hw : IsWord w k) : Spells w [k] :=
  fun _ hrest => .word hw hrest .done

/-- A text in parentheses. -/
theorem paren (h : Spells cs ks) :
    Spells ('(' :: (cs ++ [')'])) (.opening :: (ks ++ [.closing])) := by
  intro rest hrest
  have hclosing : Reads ((cs ++ [')']) ++ rest) (ks ++ [.closing]) rest := by
    rw [List.append_assoc]
    exact (h _ (Text.delimited_cons (.inl rfl))).trans (.closing .done)
  exact .opening hclosing

/-- A text, a blank and another text. -/
theorem spaced (h : Spells cs ks) (h' : Spells ds ls) : Spells (cs ++ ' ' :: ds) (ks ++ ls) :=
  h.append (h'.blank (by decide)) (Text.delimited_cons (.inr (by decide)))

end Spells

/-- Whether a text is a symbol. -/
def isSymbol : List Char → Bool
  | [] => false
  | c :: more => isSymbolStart c && more.all isSymbolPart

theorem spells_symbol {name : String} (h : isSymbol name.toList = true) :
    Spells name.toList [.sym name] := by
  have hname : name = String.ofList name.toList := String.ofList_toList.symm
  rcases hcs : name.toList with _ | ⟨c, more⟩
  · rw [hcs] at h
    cases h
  · rw [hcs, isSymbol, Bool.and_eq_true, List.all_eq_true] at h
    rw [hname, hcs]
    exact .word (.sym h.1 h.2)

/-- Decimal digits spell a number. -/
theorem spells_number {n : Nat} (h : n < intBound) : Spells (Text.number n).toList [.int n] := by
  have hdigits : (Text.number n).toList = Nat.toDigits 10 n := by
    rw [Text.number, Nat.toString_eq_ofList_toDigits, String.toList_ofList]
  rw [hdigits]
  refine .word (.int ?_ h)
  have hall : ∀ c ∈ Nat.toDigits 10 n, Text.isDigit c = true := by
    intro c hc
    have hdigit := Nat.isDigit_of_mem_toDigits (by decide) (by decide) hc
    rw [Char.isDigit, Bool.and_eq_true, decide_eq_true_iff, decide_eq_true_iff] at hdigit
    exact Text.isDigit_iff.2 hdigit
  have hread : (Nat.toDigits 10 n).foldl (fun n c => 10 * n + (c.toNat - '0'.toNat)) 0 = n :=
    Nat.ofDigitChars_eq_foldl.symm.trans Nat.ofDigitChars_ten_toDigits
  rw [Text.decimal?, if_neg, hread]
  simpa [Nat.toDigits_ne_nil] using hall

theorem hexDigit_spec : ∀ n < 16, Text.hexDigit? (Text.hexDigit n) = some n
    ∧ isSymbolPart (Text.hexDigit n) = true := by
  decide

theorem hexPairs?_flatMap (bytes : List UInt8) :
    Text.hexPairs? (bytes.flatMap Text.hexByte) = some bytes := by
  induction bytes with
  | nil => rfl
  | cons b bytes ih =>
    have hb := b.toNat_lt
    have hhi := (hexDigit_spec (b.toNat / 16) (by omega)).1
    have hlo := (hexDigit_spec (b.toNat % 16) (by omega)).1
    have hbyte : UInt8.ofNat (16 * (b.toNat / 16) + b.toNat % 16) = b := by
      rw [Nat.div_add_mod, UInt8.ofNat_toNat]
    rw [List.flatMap_cons, Text.hexByte, List.cons_append, List.cons_append, List.nil_append,
      Text.hexPairs?, hhi, hlo, ih]
    dsimp only
    rw [hbyte]

/-- Two digits a byte spell a byte string. -/
theorem spells_hex {bytes : List UInt8} (h : bytes ≠ []) :
    Spells ("0x" ++ Text.hexText bytes).toList [.hex bytes] := by
  have hchars : ("0x" ++ Text.hexText bytes).toList = '0' :: 'x' :: bytes.flatMap Text.hexByte := by
    rw [String.toList_append, Text.hexText, String.toList_ofList, String.toList_ofList]
    rfl
  have hlen : ∀ bytes : List UInt8, (bytes.flatMap Text.hexByte).length = 2 * bytes.length := by
    intro bytes
    induction bytes with
    | nil => rfl
    | cons b bytes ih =>
      rw [List.flatMap_cons, List.length_append, ih, Text.hexByte, List.length_cons,
        List.length_cons, List.length_nil, List.length_cons]
      omega
  rw [hchars]
  refine .word (.hex ?_ ?_)
  · rw [Text.hexBytes?, if_neg, if_neg, hexPairs?_flatMap]
    · rw [hlen]
      omega
    · cases bytes with
      | nil => exact absurd rfl h
      | cons b bytes => simp [Text.hexByte]
  · intro c hc
    obtain ⟨b, -, hc⟩ := List.mem_flatMap.1 hc
    have hb := b.toNat_lt
    simp only [Text.hexByte, List.mem_cons, List.not_mem_nil, or_false] at hc
    rcases hc with rfl | rfl
    · exact (hexDigit_spec _ (by omega)).2
    · exact (hexDigit_spec _ (by omega)).2

/-- Words with blanks between them spell the tokens of all words. -/
theorem spells_words {ws : List String} {kss : List (List TokenKind)}
    (h : List.Forall₂ (fun w ks => Spells w.toList ks) ws kss) :
    Spells (Text.words ws).toList kss.flatten := by
  induction h with
  | nil => exact .nil
  | @cons w ks ws kss hw hws ih =>
    cases hws with
    | nil =>
      rw [Text.words, String.intercalate_singleton, List.flatten_cons, List.flatten_nil,
        List.append_nil]
      exact hw
    | @cons w' ks' ws kss _ _ =>
      rw [Text.words, String.intercalate_cons_cons, ← Text.words, String.toList_append,
        String.toList_append, List.flatten_cons, List.append_assoc]
      exact hw.spaced ih

/-- A form spells the tokens of its words in parentheses. -/
theorem spells_form {ws : List String} {kss : List (List TokenKind)}
    (h : List.Forall₂ (fun w ks => Spells w.toList ks) ws kss) :
    Spells (Text.form ws).toList (.opening :: (kss.flatten ++ [.closing])) := by
  have hchars : (Text.form ws).toList = '(' :: ((Text.words ws).toList ++ [')']) := by
    rw [Text.form, String.toList_append, String.toList_append]
    rfl
  rw [hchars]
  exact (spells_words h).paren

end Token

end Arithmetization
