import Wordlang.Proofs.Parser.Tokens

/-!
# Texts and their tokens

A text that is put together from words, numerals, symbols and blanks is read as the tokens that these spell,
if no word or numeral runs into the characters behind it. In turn, a word that the lexer reads as an
identifier is one, and no literal that it reads is negative.
-/

namespace Wordlang

namespace Lexeme

/-- A name start followed by name characters. -/
def isWord : List Char → Bool
  | [] => false
  | c :: cs => isNameStart c && cs.all isNameChar

/-- The text does not go on with a name character. -/
def Ends (rest : List Char) : Prop := ∀ c ∈ rest.head?, isNameChar c = false

theorem ends_cons {c : Char} (cs : List Char) (h : isNameChar c = false) : Ends (c :: cs) := by
  intro d hd
  cases hd
  exact h

theorem isNameChar_of_isDigit {c : Char} (h : c.isDigit = true) : isNameChar c = true := by
  simp [isNameChar, Char.isAlphanum, h]

theorem isNameChar_of_isNameStart {c : Char} (h : isNameStart c = true) : isNameChar c = true := by
  simp only [isNameStart, Bool.or_eq_true] at h
  simp only [isNameChar, Char.isAlphanum, Bool.or_eq_true]
  tauto

/-- Neither a blank nor a comment starts with a name character. -/
theorem not_trivia_of_isNameChar {c : Char} (h : isNameChar c = true) : isBlank c = false ∧ c ≠ '/' := by
  constructor
  · by_contra hb
    simp only [isBlank, Bool.not_eq_false, Bool.or_eq_true, beq_iff_eq] at hb
    rcases hb with ((rfl | rfl) | rfl) | rfl <;> cases h
  · rintro rfl
    cases h

theorem isDigit_of_isNameStart {c : Char} (h : isNameStart c = true) : c.isDigit = false := by
  have hstart : isNameStart c = (decide (c.val ≥ 'A'.val ∧ c.val ≤ 'Z'.val) ||
      (c.val ≥ 'a'.val && c.val ≤ 'z'.val) || c == '_') := rfl
  simp only [hstart, Bool.or_eq_true, Bool.and_eq_true, decide_eq_true_eq, beq_iff_eq] at h
  simp only [Char.isDigit, Bool.and_eq_false_iff, decide_eq_false_iff_not]
  rcases h with (h | h) | rfl
  · exact .inr fun hle => absurd (UInt32.le_trans h.1 hle) (by decide)
  · exact .inr fun hle => absurd (UInt32.le_trans h.1 hle) (by decide)
  · decide

/-- Characters of a sort end where the first one of another sort comes. -/
theorem span_append {P : Char → Bool} {cs rest : List Char} (hcs : ∀ c ∈ cs, P c = true)
    (hrest : ∀ c ∈ rest.head?, P c = false) :
    (cs ++ rest).takeWhile P = cs ∧ (cs ++ rest).dropWhile P = rest := by
  rw [List.takeWhile_append_of_pos hcs, List.dropWhile_append_of_pos hcs]
  cases rest with
  | nil => simp
  | cons d rest => simp [hrest d rfl]

theorem literal_numeral (n : Nat) : literal n.repr.toList =
    if n ≤ Word.maxNat then .ok (.number (Int64.ofNat n)) else .error (.literalOutOfRange n.repr.toList) := by
  have hvalue : Nat.ofDigitChars 10 n.repr.toList 0 = n := by
    rw [Nat.toList_repr, Nat.ofDigitChars_ten_toDigits]
  simp only [literal, hvalue]

/-- A numeral is one lexeme if no name character follows. -/
theorem read_numeral (n : Nat) {rest : List Char} (hrest : Ends rest) : ∃ c cs, n.repr.toList = c :: cs ∧
    c.isDigit = true ∧ read c (cs ++ rest) = ⟨n.repr.toList, literal n.repr.toList, rest⟩ := by
  have hdigits : ∀ c ∈ n.repr.toList, c.isDigit = true := by
    intro c hc
    rw [Nat.toList_repr] at hc
    exact Nat.isDigit_of_mem_toDigits (by decide) (by decide) hc
  cases hcs : n.repr.toList with
  | nil =>
    rw [Nat.toList_repr] at hcs
    exact absurd hcs Nat.toDigits_ne_nil
  | cons c cs =>
    rw [hcs] at hdigits
    obtain ⟨hc, hdigits⟩ := List.forall_mem_cons.1 hdigits
    have hend : ∀ d ∈ rest.head?, d.isDigit = false := by
      intro d hd
      by_contra hdigit
      exact absurd (isNameChar_of_isDigit (Bool.not_eq_false _ ▸ hdigit)) (by simp [hrest d hd])
    obtain ⟨htake, hdrop⟩ := span_append hdigits hend
    exact ⟨c, cs, rfl, hc, by simp only [read, hc, htake, hdrop, if_true]⟩

end Lexeme

/-- The name is read as an identifier: a word that is no keyword. -/
def IsIdentifier (name : String) : Prop :=
  Lexeme.isWord name.toList = true ∧ Token.Kind.keyword? name = none

instance (name : String) : Decidable (IsIdentifier name) := inferInstanceAs (Decidable (_ ∧ _))

namespace Lexer

open Lexeme

/-- A text starts with tokens of the given kinds and goes on with `rest`, wherever it lies. -/
def Scans (cs : List Char) (us : List Placed) (rest : List Char) : Prop :=
  ∀ loc, ∃ loc', Reads ⟨cs, loc, []⟩ us ⟨rest, loc', []⟩

variable {c : Char} {cs mid rest : List Char} {us vs : List Placed} {kind : Token.Kind}

/-! ## Putting texts together -/

theorem skipTrivia_cons (loc : Location) (hc : isBlank c = false) (hslash : c ≠ '/' ∨ cs.head? ≠ some '/') :
    skipTrivia false loc (c :: cs) = (loc, c :: cs) := by
  simp only [skipTrivia, hc, Bool.false_eq_true, if_false]
  exact if_neg (not_and_or.2 hslash)

namespace Scans

theorem nil (cs : List Char) : Scans cs [] cs := fun loc => ⟨loc, Reads.nil_iff.2 rfl⟩

theorem append (h : Scans cs us mid) (h' : Scans mid vs rest) : Scans cs (us ++ vs) rest := by
  intro loc
  obtain ⟨loc₁, hr⟩ := h loc
  obtain ⟨loc', hr'⟩ := h' loc₁
  exact ⟨loc', hr.append hr'⟩

theorem cons {u : Placed} (h : Scans cs [u] mid) (h' : Scans mid us rest) : Scans cs (u :: us) rest := h.append h'

/-- Blanks make no token. -/
theorem blank (hc : isBlank c = true) (h : Scans cs us rest) : Scans (c :: cs) us rest := by
  intro loc
  obtain ⟨loc', hr⟩ := h (loc.advance c)
  refine ⟨loc', hr.congr_left ?_⟩
  have hnext : (⟨c :: cs, loc, []⟩ : Lexer).next = (⟨cs, loc.advance c, []⟩ : Lexer).next := by
    simp only [next, scan, skipTrivia, hc, Bool.false_eq_true, if_false, if_true]
  rw [stream_eq, hnext, ← stream_eq]

theorem blanks (ds : List Char) (hd : ∀ d ∈ ds, isBlank d = true) (h : Scans cs us rest) :
    Scans (ds ++ cs) us rest := by
  induction ds with
  | nil => exact h
  | cons d ds ih =>
    rw [List.forall_mem_cons] at hd
    exact (ih hd.2).blank hd.1

theorem skip (h : Scans cs us (c :: rest)) (hc : isBlank c = true) : Scans cs us rest := by
  have happ := h.append (blank hc (nil rest))
  rwa [List.append_nil] at happ

/-- The lexeme at the head of a text. -/
theorem lexeme (depth : Nat) (hc : isBlank c = false) (hslash : c ≠ '/' ∨ cs.head? ≠ some '/')
    (hk : (Lexeme.read c cs).kind = .ok kind) (hrest : (Lexeme.read c cs).rest = rest) :
    Scans (c :: cs) [(kind, depth)] rest := by
  intro loc
  have hskip := skipTrivia_cons loc hc hslash
  refine ⟨loc.behind (Lexeme.read c cs).chars, Reads.single depth (delivers_of_next (t := ⟨kind, loc⟩) ?_) rfl⟩
  simp only [next, scan, hskip, hk, hrest]

theorem eof (depth : Nat) : Scans [] [(.eof, depth)] [] := fun loc =>
  ⟨loc, Reads.single depth (delivers_of_next (t := ⟨.eof, loc⟩) rfl) rfl⟩

/-! ## Symbols -/

/-- A character other than `=` and `/` that is a token is one whatever follows. -/
theorem single (depth : Nat) (h : single? c = some kind ∧ c ≠ '=' ∧ c ≠ '/') :
    Scans (c :: rest) [(kind, depth)] rest := by
  obtain ⟨hk, hassign, hslash⟩ := h
  unfold single? at hk
  split at hk
  case h_4 => exact absurd rfl hslash
  case h_7 => exact absurd rfl hassign
  case h_14 => cases hk
  all_goals
    cases hk
    refine lexeme depth rfl (.inl hslash) ?_ ?_ <;> cases rest <;> rfl

theorem assign (depth : Nat) : Scans (' ' :: '=' :: ' ' :: rest) [(.assign, depth)] rest :=
  blank rfl (skip (lexeme depth rfl (.inl (by decide)) rfl rfl) rfl)

/-- An operator between blanks. -/
theorem operator (op : BinaryOp) (depth : Nat) :
    Scans (' ' :: (op.symbol.toList ++ ' ' :: rest)) [(op.token, depth)] rest := by
  have hop : Scans (op.symbol.toList ++ ' ' :: rest) [(op.token, depth)] (' ' :: rest) := by
    cases op with
    | div => exact lexeme depth rfl (.inr (by simp)) rfl rfl
    | _ => exact lexeme depth rfl (.inl (by decide)) rfl rfl
  exact blank rfl (hop.skip rfl)

theorem sign (op : UnaryOp) (depth : Nat) : Scans (op.symbol.toList ++ rest) [(op.token, depth)] rest := by
  cases op with
  | identity => exact single depth (by decide)
  | negate => exact single depth (by decide)

/-! ## Words and numerals -/

theorem word (name : String) (depth : Nat) (h : isWord name.toList = true) (hrest : Ends rest) :
    Scans (name.toList ++ rest) [(.ofName name, depth)] rest := by
  cases hname : name.toList with
  | nil =>
    rw [hname] at h
    cases h
  | cons c cs =>
    rw [hname, isWord, Bool.and_eq_true, List.all_eq_true] at h
    obtain ⟨hc, hcs⟩ := h
    obtain ⟨htake, hdrop⟩ := span_append hcs hrest
    have hread : Lexeme.read c (cs ++ rest) = ⟨c :: cs, .ok (.ofName name), rest⟩ := by
      rw [← String.ofList_toList (s := name), hname]
      simp only [Lexeme.read, isDigit_of_isNameStart hc, hc, htake, hdrop, Bool.false_eq_true, if_false, if_true]
    obtain ⟨hblank, hslash⟩ := not_trivia_of_isNameChar (isNameChar_of_isNameStart hc)
    exact lexeme depth hblank (.inl hslash) (congrArg Lexeme.kind hread) (congrArg Lexeme.rest hread)

theorem identifier {name : String} (depth : Nat) (h : IsIdentifier name) (hrest : Ends rest) :
    Scans (name.toList ++ rest) [(.ident name, depth)] rest := by
  have hkind : Token.Kind.ofName name = .ident name := by rw [Token.Kind.ofName, h.2]; rfl
  exact hkind ▸ word name depth h.1 hrest

theorem numeral {n : Nat} (depth : Nat) (hn : n ≤ Word.maxNat) (hrest : Ends rest) :
    Scans (n.repr.toList ++ rest) [(.number (Int64.ofNat n), depth)] rest := by
  obtain ⟨c, cs, hcs, hc, hread⟩ := read_numeral n hrest
  rw [literal_numeral, if_pos hn] at hread
  obtain ⟨hblank, hslash⟩ := not_trivia_of_isNameChar (isNameChar_of_isDigit hc)
  rw [hcs, List.cons_append]
  exact lexeme depth hblank (.inl hslash) (congrArg Lexeme.kind hread) (congrArg Lexeme.rest hread)

/-- The numeral in front of the difference that a negative number is written as. -/
theorem zero (depth : Nat) (rest : List Char) : Scans ('0' :: ' ' :: rest) [(.number 0, depth)] (' ' :: rest) :=
  lexeme depth rfl (.inl (by decide)) rfl rfl

end Scans

end Lexer

/-! ## What the lexer reads -/

/-- What is true of the kind of every token that is read from a text. -/
def Token.Kind.Valid : Token.Kind → Prop
  | number value => 0 ≤ value
  | ident name => IsIdentifier name
  | _ => True

theorem Token.Kind.valid_ofName {name : String} (h : Lexeme.isWord name.toList = true) :
    (Token.Kind.ofName name).Valid := by
  unfold ofName
  cases hk : keyword? name with
  | none => exact ⟨h, hk⟩
  | some kind =>
    unfold keyword? at hk
    split at hk <;> cases hk <;> trivial

namespace Lexeme

variable {c : Char} {cs : List Char} {kind : Token.Kind}

theorem valid_literal {digits : List Char} (h : literal digits = .ok kind) : kind.Valid := by
  simp only [literal] at h
  split at h
  · rename_i hle
    cases h
    have hlt : Nat.ofDigitChars 10 digits 0 < 2 ^ 63 := Nat.lt_succ_of_le hle
    rw [Token.Kind.Valid, Int64.le_iff_toInt_le, Int64.toInt_ofNat_of_lt hlt]
    exact Int.natCast_nonneg _
  · cases h

theorem valid_lone (h : (lone c cs).kind = .ok kind) : kind.Valid := by
  unfold lone at h
  split at h
  · rename_i hk
    cases h
    unfold single? at hk
    split at hk <;> cases hk <;> trivial
  · cases h

theorem valid_symbol (h : (symbol c cs).kind = .ok kind) : kind.Valid := by
  unfold symbol at h
  split at h
  · exact valid_lone h
  · split at h
    · rename_i hk
      cases h
      unfold pair? at hk
      split at hk <;> cases hk <;> trivial
    · exact valid_lone h

theorem valid_read (h : (read c cs).kind = .ok kind) : kind.Valid := by
  unfold read at h
  split at h
  · exact valid_literal h
  · split at h
    · rename_i hc
      cases h
      refine Token.Kind.valid_ofName ?_
      rw [String.toList_ofList, isWord, hc, List.all_takeWhile]
      rfl
    · exact valid_symbol h

end Lexeme

namespace Lexer

theorem scan_ok {loc : Location} {rest : List Char} {t : Token} {l : Lexer} (h : scan loc rest = (.ok t, l)) :
    t.kind.Valid ∧ l.pushback = [] := by
  unfold scan at h
  split at h
  · cases h
    exact ⟨trivial, rfl⟩
  · dsimp only at h
    split at h
    · rename_i hk
      cases h
      exact ⟨Lexeme.valid_read hk, rfl⟩
    · cases h

/-- A lexer with no tokens handed back delivers tokens that are read from its text. -/
theorem Reads.valid {us : List Placed} {l l' : Lexer} (h : l.Reads us l') (hl : l.pushback = []) :
    ∀ u ∈ us, u.1.Valid := by
  obtain ⟨ts, hk, hs⟩ := h
  have hts : ∀ t ∈ ts, t.kind.Valid := by
    clear hk
    induction ts generalizing l with
    | nil => simp
    | cons t ts ih =>
      rw [List.map_cons, Stream'.cons_append_stream, stream_eq] at hs
      obtain ⟨ht, htail⟩ := Stream'.cons_injective2 hs
      have hnext : scan l.loc l.rest = (.ok t, l.next.2) := by
        rw [← ht]
        simp only [next, hl]
      obtain ⟨hvalid, hl'⟩ := scan_ok hnext
      exact List.forall_mem_cons.2 ⟨hvalid, ih hl' htail⟩
  intro u hu
  have hmem : u.1 ∈ ts.map (·.kind) := hk ▸ List.mem_map_of_mem hu
  obtain ⟨t, ht, htu⟩ := List.mem_map.1 hmem
  exact htu ▸ hts t ht

end Lexer

end Wordlang
