import Wordlang.Text.Numeral
import Wordlang.Proofs.Printer.Lexing
import Mathlib.Data.List.DropRight
import Mathlib.Data.Nat.Digits.Defs

/-!
# How a text is cut into tokens

A text is cut into lexemes with trivia between them, and each lexeme is as long as it can be. `Partitioned` says
which tokens come of it and where they lie; `Stuck` says at which place a text cannot be cut any further. Every
text is either partitioned or stuck, and the lexer delivers just the tokens of the one or the error of the other.
-/

namespace Wordlang

/-! ## Locations -/

namespace Location

/-- Where a text lies that stands behind `before`. Line feeds count the lines, and the columns start again
behind the last of them. -/
def after (before : List Char) : Location :=
  ⟨1 + before.count '\n', 1 + (before.rtakeWhile (· != '\n')).length⟩

theorem after_concat (before : List Char) (c : Char) : after (before ++ [c]) = (after before).advance c := by
  by_cases hc : c = '\n'
  · subst hc
    simp [after, advance, Nat.add_assoc]
  · simp [after, advance, hc, Nat.add_assoc]

theorem after_append (before cs : List Char) : after (before ++ cs) = (after before).behind cs := by
  induction cs generalizing before with
  | nil => rw [List.append_nil, behind_nil]
  | cons c cs ih => rw [List.append_cons, ih, after_concat, behind_cons]

end Location

/-! ## Trivia -/

open Lexeme

/-- The text starts with a blank or a comment. -/
def StartsTrivia (text : List Char) : Prop := (∃ c ∈ text.head?, isBlank c = true) ∨ ['/', '/'] <+: text

/-- All the blanks and comments in front of `rest`. A comment ends with its line, the last one possibly with the
text. -/
inductive Trivia : (gap rest : List Char) → Prop
  | nil {rest : List Char} : ¬ StartsTrivia rest → Trivia [] rest
  | blank {c : Char} {gap rest : List Char} : isBlank c = true → Trivia gap rest → Trivia (c :: gap) rest
  | comment {body gap rest : List Char} :
    '\n' ∉ body → Trivia gap rest → Trivia ('/' :: '/' :: (body ++ '\n' :: gap)) rest
  | lastComment {body : List Char} : '\n' ∉ body → Trivia ('/' :: '/' :: body) []

theorem exists_trivia (text : List Char) : ∃ gap rest, text = gap ++ rest ∧ Trivia gap rest := by
  -- A comment takes more than one character, so the induction is on the length and not on the list.
  induction hn : text.length using Nat.strong_induction_on generalizing text with
  | _ n ih =>
    subst hn
    by_cases htrivia : StartsTrivia text
    · rcases htrivia with ⟨c, hc, hblank⟩ | ⟨line, rfl⟩
      · obtain ⟨cs, rfl⟩ := List.head?_eq_some_iff.1 hc
        obtain ⟨gap, rest, rfl, h⟩ := ih cs.length (by simp) cs rfl
        exact ⟨c :: gap, rest, rfl, .blank hblank h⟩
      · by_cases hline : '\n' ∈ line
        · obtain ⟨body, behind, rfl, hbody⟩ := List.eq_append_cons_of_mem hline
          obtain ⟨gap, rest, rfl, h⟩ := ih behind.length (by simp; omega) behind rfl
          exact ⟨'/' :: '/' :: (body ++ '\n' :: gap), rest, by simp, .comment hbody h⟩
        · exact ⟨'/' :: '/' :: line, [], by simp, .lastComment hline⟩
    · exact ⟨[], text, rfl, .nil htrivia⟩

namespace Lexer

theorem skipTrivia_comment {body : List Char} (h : '\n' ∉ body) (loc : Location) (cs : List Char) :
    skipTrivia true loc (body ++ '\n' :: cs) = skipTrivia false (loc.behind (body ++ ['\n'])) cs := by
  induction body generalizing loc with
  | nil => rfl
  | cons c body ih =>
    obtain ⟨hc, hbody⟩ := not_or.1 fun hmem => h (List.mem_cons.2 hmem)
    rw [List.cons_append, skipTrivia, if_pos rfl, bne_iff_ne.2 (Ne.symm hc), ih hbody]
    rfl

theorem skipTrivia_lastComment {body : List Char} (h : '\n' ∉ body) (loc : Location) :
    skipTrivia true loc body = (loc.behind body, []) := by
  induction body generalizing loc with
  | nil => rfl
  | cons c body ih =>
    obtain ⟨hc, hbody⟩ := not_or.1 fun hmem => h (List.mem_cons.2 hmem)
    rw [skipTrivia, if_pos rfl, bne_iff_ne.2 (Ne.symm hc), ih hbody]
    rfl

/-- In front of a comment the slashes are passed one by one. -/
theorem skipTrivia_slashes (loc : Location) (cs : List Char) :
    skipTrivia false loc ('/' :: '/' :: cs) = skipTrivia true (loc.behind ['/', '/']) cs := rfl

theorem skipTrivia_of_not_startsTrivia {text : List Char} (h : ¬ StartsTrivia text) (loc : Location) :
    skipTrivia false loc text = (loc, text) := by
  cases text with
  | nil => rfl
  | cons c cs =>
    have hblank : ¬ isBlank c = true := fun hc => h (.inl ⟨c, rfl, hc⟩)
    have hslash : ¬ (c = '/' ∧ cs.head? = some '/') := by
      rintro ⟨rfl, hcs⟩
      obtain ⟨cs, rfl⟩ := List.head?_eq_some_iff.1 hcs
      exact h (.inr ⟨cs, rfl⟩)
    rw [skipTrivia, if_neg Bool.false_ne_true, if_neg hblank, if_neg hslash]

/-- The lexer skips trivia as a whole. -/
theorem skipTrivia_of_trivia {gap rest : List Char} (h : Trivia gap rest) (loc : Location) :
    skipTrivia false loc (gap ++ rest) = (loc.behind gap, rest) := by
  induction h generalizing loc with
  | nil hrest => exact skipTrivia_of_not_startsTrivia hrest loc
  | blank hc _ ih =>
    rw [List.cons_append, skipTrivia, if_neg Bool.false_ne_true, if_pos hc, ih]
    rfl
  | @comment body gap rest hbody _ ih =>
    have happ : '/' :: '/' :: (body ++ '\n' :: gap) ++ rest = '/' :: '/' :: (body ++ '\n' :: (gap ++ rest)) := by simp
    rw [happ, skipTrivia_slashes, skipTrivia_comment hbody, ih, ← Location.behind_append, ← Location.behind_append]
    simp
  | lastComment hbody =>
    rw [List.append_nil, skipTrivia_slashes, skipTrivia_lastComment hbody]
    rfl

end Lexer

/-! ## Lexemes -/

/-- The value of decimal digits, the last of which counts ones. -/
def decimal (digits : List Char) : Nat := Nat.ofDigits 10 (digits.reverse.map Numeral.digitValue)

theorem ofDigitChars_eq_decimal (digits : List Char) : Nat.ofDigitChars 10 digits 0 = decimal digits := by
  rw [decimal, Nat.ofDigits_eq_foldr, List.foldr_map, List.foldr_reverse, Nat.ofDigitChars]
  simp only [Numeral.digitValue, Nat.add_comm, Nat.cast_id]

namespace Token.Kind

def keywords : List Kind := [kwIf, kwElse, kwVar, kwFunc, kwProc, kwReturn]

def symbols : List Kind :=
  [plus, minus, star, slash, less, greater, equal, notEqual, andAnd, orOr, assign, lparen, rparen, lbrace, rbrace,
    semicolon, comma]

end Token.Kind

namespace Lexeme

open Token.Kind

def IsDigits (cs : List Char) : Prop := cs ≠ [] ∧ ∀ c ∈ cs, c.isDigit = true

/-- Characters that make up a lexeme, be it of a token or of a literal that is out of range. -/
inductive IsLexeme : List Char → Prop
  | word {cs : List Char} : isWord cs = true → IsLexeme cs
  | digits {cs : List Char} : IsDigits cs → IsLexeme cs
  | symbol {kind : Token.Kind} : kind ∈ symbols → IsLexeme kind.spelling.toList

/-- A lexeme in front of `rest` that cannot be made longer. -/
def Longest (cs rest : List Char) : Prop :=
  IsLexeme cs ∧ ∀ longer, IsLexeme longer → longer <+: cs ++ rest → longer.length ≤ cs.length

/-- The token that a lexeme makes. -/
inductive Spells : List Char → Token.Kind → Prop
  | number {digits : List Char} {value : Word} :
    IsDigits digits → value.toInt = decimal digits → Spells digits (.number value)
  | identifier {name : String} : IsIdentifier name → Spells name.toList (.ident name)
  | keyword {kind : Token.Kind} : kind ∈ keywords → Spells kind.spelling.toList kind
  | symbol {kind : Token.Kind} : kind ∈ symbols → Spells kind.spelling.toList kind

/-- Why no token starts at the head of a text that is neither empty nor starts with trivia. -/
inductive Blocked : List Char → LexError.Cause → Prop
  | character {c : Char} {rest : List Char} :
    (∀ cs, IsLexeme cs → ¬ cs <+: c :: rest) → Blocked (c :: rest) (.unexpectedCharacter c)
  | literal {digits rest : List Char} :
    IsDigits digits → Longest digits rest → Word.maxNat < decimal digits →
    Blocked (digits ++ rest) (.literalOutOfRange digits)

/-! ## What the head of a text is read as -/

variable {c : Char} {cs rest : List Char} {kind : Token.Kind}

theorem not_isNameChar_of_symbol : ∀ kind ∈ symbols, ∀ c ∈ kind.spelling.toList.head?, isNameChar c = false := by
  have hall : ∀ kind ∈ symbols, kind.spelling.toList.head?.all (!isNameChar ·) = true := by decide
  intro kind hkind c hc
  simpa using (Option.all_eq_true _ _).1 (hall kind hkind) c hc

theorem symbol_ne_nil : ∀ kind ∈ symbols, kind.spelling.toList ≠ [] := by
  decide

/-- The first character tells which sort a lexeme is of. -/
theorem IsLexeme.of_isDigit (h : IsLexeme (c :: cs)) (hc : c.isDigit = true) : IsDigits (c :: cs) := by
  generalize htext : c :: cs = text at h
  cases h with
  | word hword =>
    rw [← htext, isWord, Bool.and_eq_true] at hword
    exact absurd hc (by simp [isDigit_of_isNameStart hword.1])
  | digits hdigits => exact hdigits
  | symbol hkind =>
    exact absurd (isNameChar_of_isDigit hc) (by simp [not_isNameChar_of_symbol _ hkind c (by rw [← htext]; rfl)])

theorem IsLexeme.of_isNameStart (h : IsLexeme (c :: cs)) (hc : isNameStart c = true) : isWord (c :: cs) = true := by
  generalize htext : c :: cs = text at h
  cases h with
  | word hword => exact hword
  | digits hdigits => exact absurd (hdigits.2 c (htext ▸ List.mem_cons_self)) (by simp [isDigit_of_isNameStart hc])
  | symbol hkind =>
    exact absurd (isNameChar_of_isNameStart hc) (by simp [not_isNameChar_of_symbol _ hkind c (by rw [← htext]; rfl)])

theorem IsLexeme.of_not (h : IsLexeme (c :: cs)) (hdigit : ¬ c.isDigit = true) (hname : ¬ isNameStart c = true) :
    ∃ kind ∈ symbols, kind.spelling.toList = c :: cs := by
  generalize htext : c :: cs = text at h
  cases h with
  | word hword =>
    rw [← htext, isWord, Bool.and_eq_true] at hword
    exact absurd hword.1 hname
  | digits hdigits => exact absurd (hdigits.2 c (htext ▸ List.mem_cons_self)) hdigit
  | @symbol kind hkind => exact ⟨kind, hkind, rfl⟩

theorem IsLexeme.ne_nil (h : IsLexeme cs) : cs ≠ [] := by
  rintro rfl
  generalize htext : [] = text at h
  cases h with
  | word hword => exact absurd hword (by simp [← htext, isWord])
  | digits hdigits => exact hdigits.1 htext.symm
  | symbol hkind => exact symbol_ne_nil _ hkind htext.symm

theorem Longest.unique {cs' rest' : List Char} (h : Longest cs rest) (h' : Longest cs' rest')
    (htext : cs ++ rest = cs' ++ rest') : cs = cs' ∧ rest = rest' := by
  refine List.append_inj htext (Nat.le_antisymm ?_ ?_)
  · exact h'.2 cs h.1 (htext ▸ List.prefix_append cs rest)
  · exact h.2 cs' h'.1 (htext ▸ List.prefix_append cs' rest')

/-! A lexeme makes one token. -/

theorem keyword?_of_mem_keywords : ∀ kind ∈ keywords,
    isWord kind.spelling.toList = true ∧ keyword? kind.spelling = some kind := by
  decide

theorem not_isWord_of_symbol : ∀ kind ∈ symbols, isWord kind.spelling.toList = false := by
  decide

theorem spelling_inj_of_symbol : ∀ kind ∈ symbols, ∀ kind' ∈ symbols,
    kind.spelling.toList = kind'.spelling.toList → kind = kind' := by
  decide

theorem IsDigits.not_isWord (h : IsDigits cs) : ¬ isWord cs = true := by
  obtain ⟨c, cs, rfl⟩ := List.exists_cons_of_ne_nil h.1
  intro hword
  rw [isWord, Bool.and_eq_true] at hword
  exact absurd (h.2 c List.mem_cons_self) (by simp [isDigit_of_isNameStart hword.1])

theorem IsDigits.ne_symbol (h : IsDigits cs) (hkind : kind ∈ symbols) : kind.spelling.toList ≠ cs := by
  rintro rfl
  obtain ⟨c, cs, hcs⟩ := List.exists_cons_of_ne_nil h.1
  have hdigit := isNameChar_of_isDigit (h.2 c (hcs ▸ List.mem_cons_self))
  exact absurd hdigit (by simp [not_isNameChar_of_symbol kind hkind c (by rw [hcs]; rfl)])

/-- A word is the keyword with this spelling, or an identifier. -/
theorem Spells.of_isWord (h : Spells cs kind) (hword : isWord cs = true) : kind = .ofName (String.ofList cs) := by
  cases h with
  | number hdigits _ => exact absurd hword hdigits.not_isWord
  | identifier hname => rw [String.ofList_toList, ofName, hname.2, Option.getD_none]
  | keyword hkind => rw [String.ofList_toList, ofName, (keyword?_of_mem_keywords _ hkind).2, Option.getD_some]
  | symbol hkind => simp [not_isWord_of_symbol _ hkind] at hword

theorem Spells.of_isDigits (h : Spells cs kind) (hdigits : IsDigits cs) :
    ∃ value : Word, kind = .number value ∧ value.toInt = decimal cs := by
  cases h with
  | @number _ value _ hvalue => exact ⟨value, rfl, hvalue⟩
  | identifier hname => exact absurd hname.1 hdigits.not_isWord
  | keyword hkind => exact absurd (keyword?_of_mem_keywords _ hkind).1 hdigits.not_isWord
  | symbol hkind => exact absurd rfl (hdigits.ne_symbol hkind)

theorem Spells.of_symbol {kind' : Token.Kind} (h : Spells cs kind) (hkind : kind' ∈ symbols)
    (hcs : kind'.spelling.toList = cs) : kind = kind' := by
  have hword := not_isWord_of_symbol kind' hkind
  rw [hcs] at hword
  cases h with
  | number hdigits _ => exact absurd hcs (hdigits.ne_symbol hkind)
  | identifier hname => simp [hname.1] at hword
  | keyword hkind => simp [(keyword?_of_mem_keywords _ hkind).1] at hword
  | symbol h => exact spelling_inj_of_symbol _ h _ hkind hcs.symm

theorem Spells.unique {kind' : Token.Kind} (h : Spells cs kind) (h' : Spells cs kind') : kind = kind' := by
  cases h with
  | number hdigits hvalue =>
    obtain ⟨value, rfl, hvalue'⟩ := h'.of_isDigits hdigits
    rw [Int64.toInt_inj.1 (hvalue.trans hvalue'.symm)]
  | identifier hname => exact (Spells.of_isWord (.identifier hname) hname.1).trans (h'.of_isWord hname.1).symm
  | keyword hkind =>
    have hword := (keyword?_of_mem_keywords _ hkind).1
    exact (Spells.of_isWord (.keyword hkind) hword).trans (h'.of_isWord hword).symm
  | symbol hkind => exact (h'.of_symbol hkind rfl).symm

theorem Spells.isLexeme (h : Spells cs kind) : IsLexeme cs := by
  cases h with
  | number hdigits _ => exact .digits hdigits
  | identifier hname => exact .word hname.1
  | keyword hkind => exact .word (keyword?_of_mem_keywords _ hkind).1
  | symbol hkind => exact .symbol hkind

theorem Spells.ne_eof (h : Spells cs kind) : kind ≠ .eof := by
  rintro rfl
  cases h <;> contradiction

theorem mem_keywords_of_keyword? {name : String} (h : keyword? name = some kind) :
    kind ∈ keywords ∧ kind.spelling = name := by
  unfold keyword? at h
  split at h <;> cases h <;> decide

theorem spells_ofName (h : isWord cs = true) : Spells cs (.ofName (String.ofList cs)) := by
  obtain ⟨name, rfl⟩ : ∃ name : String, name.toList = cs := ⟨String.ofList cs, String.toList_ofList⟩
  rw [String.ofList_toList]
  unfold ofName
  cases hk : keyword? name with
  | none => exact .identifier ⟨h, hk⟩
  | some kind =>
    obtain ⟨hmem, rfl⟩ := mem_keywords_of_keyword? hk
    exact .keyword hmem

theorem of_single (h : single? c = some kind) : kind ∈ symbols ∧ kind.spelling.toList = [c] := by
  unfold single? at h
  split at h <;> cases h <;> decide

theorem of_pair {d : Char} (h : pair? c d = some kind) : kind ∈ symbols ∧ kind.spelling.toList = [c, d] := by
  unfold pair? at h
  split at h <;> cases h <;> decide

theorem symbol_shape (hkind : kind ∈ symbols) (h : kind.spelling.toList = c :: cs) :
    (cs = [] ∧ single? c = some kind) ∨ ∃ d, cs = [d] ∧ pair? c d = some kind := by
  cases kind <;> simp [symbols, spelling] at hkind h <;> obtain ⟨rfl, rfl⟩ := h
  all_goals first | exact .inl ⟨rfl, rfl⟩ | exact .inr ⟨_, rfl, rfl⟩

/-! What the lexer reads at the head of a text is the longest lexeme there. -/

theorem longest_takeWhile {P : Char → Bool} (hlexeme : IsLexeme (c :: cs.takeWhile P))
    (hsort : ∀ ds, IsLexeme (c :: ds) → ∀ d ∈ ds, P d = true) :
    Longest (c :: cs.takeWhile P) (cs.dropWhile P) := by
  refine ⟨hlexeme, fun longer hlonger hprefix => ?_⟩
  rw [List.cons_append, List.takeWhile_append_dropWhile] at hprefix
  obtain ⟨d, ds, rfl⟩ := List.exists_cons_of_ne_nil hlonger.ne_nil
  obtain ⟨rfl, more, rfl⟩ := List.cons_prefix_cons.1 hprefix
  rw [List.takeWhile_append_of_pos (hsort ds hlonger)]
  simp

theorem longest_digits (cs : List Char) (hc : c.isDigit = true) :
    IsDigits (c :: cs.takeWhile Char.isDigit) ∧
    Longest (c :: cs.takeWhile Char.isDigit) (cs.dropWhile Char.isDigit) := by
  have hdigits : IsDigits (c :: cs.takeWhile Char.isDigit) := by
    refine ⟨List.cons_ne_nil _ _, List.forall_mem_cons.2 ⟨hc, ?_⟩⟩
    exact List.all_eq_true.1 List.all_takeWhile
  refine ⟨hdigits, longest_takeWhile (.digits hdigits) fun ds hds d hd => ?_⟩
  exact (hds.of_isDigit hc).2 d (List.mem_cons_of_mem c hd)

theorem longest_word (cs : List Char) (hc : isNameStart c = true) :
    isWord (c :: cs.takeWhile isNameChar) = true ∧
    Longest (c :: cs.takeWhile isNameChar) (cs.dropWhile isNameChar) := by
  have hword : isWord (c :: cs.takeWhile isNameChar) = true := by
    rw [isWord, hc, List.all_takeWhile]
    rfl
  refine ⟨hword, longest_takeWhile (.word hword) fun ds hds d hd => ?_⟩
  have htail := hds.of_isNameStart hc
  rw [isWord, Bool.and_eq_true, List.all_eq_true] at htail
  exact htail.2 d hd

/-- Behind a character that starts neither a number nor a word, only symbols are lexemes. -/
theorem longest_pair {d : Char} (cs : List Char) (hdigit : ¬ c.isDigit = true)
    (hname : ¬ isNameStart c = true) (h : pair? c d = some kind) : Longest [c, d] cs ∧ Spells [c, d] kind := by
  obtain ⟨hkind, hspell⟩ := of_pair h
  rw [← hspell]
  refine ⟨⟨.symbol hkind, fun longer hlonger hprefix => ?_⟩, .symbol hkind⟩
  rw [hspell] at *
  obtain ⟨c', ds, rfl⟩ := List.exists_cons_of_ne_nil hlonger.ne_nil
  obtain ⟨rfl, -⟩ := List.cons_prefix_cons.1 hprefix
  obtain ⟨kind', hkind', hspell'⟩ := hlonger.of_not hdigit hname
  rcases symbol_shape hkind' hspell' with ⟨rfl, -⟩ | ⟨d', rfl, -⟩ <;> simp

theorem longest_single (hdigit : ¬ c.isDigit = true) (hname : ¬ isNameStart c = true)
    (h : single? c = some kind) (hpair : ∀ d ∈ cs.head?, pair? c d = none) :
    Longest [c] cs ∧ Spells [c] kind := by
  obtain ⟨hkind, hspell⟩ := of_single h
  rw [← hspell]
  refine ⟨⟨.symbol hkind, fun longer hlonger hprefix => ?_⟩, .symbol hkind⟩
  rw [hspell] at *
  obtain ⟨c', ds, rfl⟩ := List.exists_cons_of_ne_nil hlonger.ne_nil
  obtain ⟨rfl, hds⟩ := List.cons_prefix_cons.1 hprefix
  obtain ⟨kind', hkind', hspell'⟩ := hlonger.of_not hdigit hname
  -- A longer symbol would be one of two characters, and those the text does not have.
  rcases symbol_shape hkind' hspell' with ⟨rfl, -⟩ | ⟨d, rfl, hd⟩
  · exact Nat.le_refl _
  · obtain ⟨more, rfl⟩ := hds
    exact absurd hd (by simp [hpair d rfl])

theorem blocked_of_not (hdigit : ¬ c.isDigit = true) (hname : ¬ isNameStart c = true)
    (h : single? c = none) (hpair : ∀ d ∈ cs.head?, pair? c d = none) :
    Blocked (c :: cs) (.unexpectedCharacter c) := by
  refine .character fun lexeme hlexeme hprefix => ?_
  obtain ⟨c', ds, rfl⟩ := List.exists_cons_of_ne_nil hlexeme.ne_nil
  obtain ⟨rfl, hds⟩ := List.cons_prefix_cons.1 hprefix
  obtain ⟨kind, hkind, hspell⟩ := hlexeme.of_not hdigit hname
  rcases symbol_shape hkind hspell with ⟨rfl, hc⟩ | ⟨d, rfl, hd⟩
  · exact absurd hc (by simp [h])
  · obtain ⟨more, rfl⟩ := hds
    exact absurd hd (by simp [hpair d rfl])

/-- What is at the head of a text, with a lexeme or without. -/
inductive Head : (text : List Char) → Lexeme → Prop
  | token {chars rest : List Char} {kind : Token.Kind} :
    Longest chars rest → Spells chars kind → Head (chars ++ rest) ⟨chars, .ok kind, rest⟩
  | blocked {text chars rest : List Char} {cause : LexError.Cause} :
    Blocked text cause → Head text ⟨chars, .error cause, rest⟩

theorem head_lone (hdigit : ¬ c.isDigit = true) (hname : ¬ isNameStart c = true)
    (hpair : ∀ d ∈ cs.head?, pair? c d = none) : Head (c :: cs) (lone c cs) := by
  unfold lone
  split
  · rename_i kind hkind
    obtain ⟨hlongest, hspells⟩ := longest_single hdigit hname hkind hpair
    exact .token hlongest hspells
  · rename_i hnone
    exact .blocked (blocked_of_not hdigit hname hnone hpair)

theorem head_symbol (hdigit : ¬ c.isDigit = true) (hname : ¬ isNameStart c = true) :
    Head (c :: cs) (symbol c cs) := by
  unfold symbol
  split
  · exact head_lone hdigit hname (by simp)
  · rename_i d cs
    split
    · rename_i kind hkind
      obtain ⟨hlongest, hspells⟩ := longest_pair cs hdigit hname hkind
      exact .token hlongest hspells
    · rename_i hnone
      exact head_lone hdigit hname (by simpa using hnone)

theorem head_literal {digits rest : List Char} (hdigits : IsDigits digits) (hlongest : Longest digits rest) :
    Head (digits ++ rest) ⟨digits, literal digits, rest⟩ := by
  simp only [literal, ofDigitChars_eq_decimal]
  split
  · rename_i hle
    have hlt : decimal digits < 2 ^ 63 := Nat.lt_succ_of_le hle
    exact .token hlongest (.number hdigits (Int64.toInt_ofNat_of_lt hlt))
  · rename_i hlt
    exact .blocked (.literal hdigits hlongest (Nat.lt_of_not_le hlt))

theorem head_read (c : Char) (cs : List Char) : Head (c :: cs) (read c cs) := by
  unfold read
  by_cases hdigit : c.isDigit = true
  · obtain ⟨hdigits, hlongest⟩ := longest_digits cs hdigit
    have h := head_literal hdigits hlongest
    rw [List.cons_append, List.takeWhile_append_dropWhile] at h
    rwa [if_pos hdigit]
  · rw [if_neg hdigit]
    by_cases hname : isNameStart c = true
    · obtain ⟨hword, hlongest⟩ := longest_word cs hname
      have h := Head.token hlongest (spells_ofName hword)
      rw [List.cons_append, List.takeWhile_append_dropWhile] at h
      rwa [if_pos hname]
    · rw [if_neg hname]
      exact head_symbol hdigit hname

theorem Blocked.ne_nil {cause : LexError.Cause} (h : Blocked cs cause) : cs ≠ [] := by
  cases h with
  | character _ => exact List.cons_ne_nil _ _
  | literal hdigits _ _ => exact List.append_ne_nil_of_left_ne_nil hdigits.1 _

theorem Blocked.not_token {chars : List Char} {cause : LexError.Cause} (h : Blocked cs cause)
    (hlongest : Longest chars rest) (hspells : Spells chars kind) : cs ≠ chars ++ rest := by
  intro hcs
  cases h with
  | character hno => exact hno chars hlongest.1 (hcs ▸ List.prefix_append chars rest)
  | literal hdigits hlongest' hlt =>
    obtain ⟨rfl, -⟩ := hlongest'.unique hlongest hcs
    obtain ⟨value, rfl, hvalue⟩ := hspells.of_isDigits hdigits
    have := value.toInt_lt
    simp only [Word.maxNat] at hlt
    omega

theorem Blocked.unique {cause cause' : LexError.Cause} (h : Blocked cs cause) (h' : Blocked cs cause') :
    cause = cause' := by
  generalize htext : cs = text at h'
  cases h with
  | character hno =>
    cases h' with
    | character _ => rw [(List.cons.inj htext).1]
    | literal hdigits hlongest _ => exact absurd (htext ▸ List.prefix_append _ _) (hno _ hlongest.1)
  | literal hdigits hlongest _ =>
    cases h' with
    | character hno => exact absurd (htext ▸ List.prefix_append _ _) (hno _ hlongest.1)
    | literal _ hlongest' _ => rw [(hlongest.unique hlongest' htext).1]

theorem read_of_token {chars : List Char} (hlongest : Longest chars rest) (hspells : Spells chars kind)
    (htext : c :: cs = chars ++ rest) : read c cs = ⟨chars, .ok kind, rest⟩ := by
  have h := head_read c cs
  generalize hlexeme : read c cs = lexeme at h
  generalize c :: cs = text at h htext
  cases h with
  | token hlongest' hspells' =>
    obtain ⟨rfl, rfl⟩ := hlongest'.unique hlongest htext
    rw [hspells'.unique hspells]
  | blocked hblocked => exact absurd htext (hblocked.not_token hlongest hspells)

theorem read_of_blocked {cause : LexError.Cause} (hblocked : Blocked (c :: cs) cause) :
    (read c cs).kind = .error cause := by
  have h := head_read c cs
  generalize hlexeme : read c cs = lexeme at h
  generalize htext : c :: cs = text at h
  cases h with
  | token hlongest hspells => exact absurd htext (hblocked.not_token hlongest hspells)
  | blocked hblocked' =>
    subst htext
    rw [hblocked'.unique hblocked]

end Lexeme

/-! ## Whole texts -/

/-- The text, which stands behind `before`, is cut into lexemes and the trivia between them. These are its tokens. -/
inductive Partitioned : (before text : List Char) → List Token → Prop
  | last {before gap : List Char} : Trivia gap [] → Partitioned before gap [⟨.eof, .after (before ++ gap)⟩]
  | token {before gap lexeme rest : List Char} {kind : Token.Kind} {ts : List Token} :
    Trivia gap (lexeme ++ rest) → Longest lexeme rest → Spells lexeme kind →
    Partitioned (before ++ gap ++ lexeme) rest ts →
    Partitioned before (gap ++ lexeme ++ rest) (⟨kind, .after (before ++ gap)⟩ :: ts)

/-- The text, which stands behind `before`, can be cut only up to a place where no token starts. -/
inductive Stuck : (before text : List Char) → LexError → Prop
  | here {before gap rest : List Char} {cause : LexError.Cause} :
    Trivia gap rest → Blocked rest cause → Stuck before (gap ++ rest) ⟨cause, .after (before ++ gap)⟩
  | behind {before gap lexeme rest : List Char} {kind : Token.Kind} {e : LexError} :
    Trivia gap (lexeme ++ rest) → Longest lexeme rest → Spells lexeme kind →
    Stuck (before ++ gap ++ lexeme) rest e → Stuck before (gap ++ lexeme ++ rest) e

theorem partitioned_or_stuck (before text : List Char) :
    (∃ ts, Partitioned before text ts) ∨ ∃ e, Stuck before text e := by
  -- On the length of the text, as no lexeme is empty.
  induction hn : text.length using Nat.strong_induction_on generalizing before text with
  | _ n ih =>
    subst hn
    obtain ⟨gap, rest, rfl, hgap⟩ := exists_trivia text
    cases rest with
    | nil => exact .inl ⟨_, by simpa using Partitioned.last hgap⟩
    | cons c cs =>
      have h := head_read c cs
      generalize c :: cs = text at h hgap ih
      generalize read c cs = head at h
      cases h with
      | @token lexeme rest kind hlongest hspells =>
        have hpos := List.length_pos_iff.2 hlongest.1.ne_nil
        rw [← List.append_assoc]
        rcases ih rest.length (by simp; omega) (before ++ gap ++ lexeme) rest rfl with ⟨ts, hts⟩ | ⟨e, he⟩
        · exact .inl ⟨_, .token hgap hlongest hspells hts⟩
        · exact .inr ⟨_, .behind hgap hlongest hspells he⟩
      | blocked hblocked => exact .inr ⟨_, .here hgap hblocked⟩

namespace Partitioned

variable {before text : List Char} {ts : List Token}

theorem getLast (h : Partitioned before text ts) : ∃ us, ts = us ++ [⟨.eof, .after (before ++ text)⟩] := by
  induction h with
  | last _ => exact ⟨[], rfl⟩
  | token _ _ _ _ ih =>
    obtain ⟨us, rfl⟩ := ih
    exact ⟨_ :: us, by rw [← List.append_assoc, ← List.append_assoc, List.cons_append]⟩

end Partitioned

namespace Lexer

variable {before gap rest text : List Char} {kind : Token.Kind} {l l' : Lexer} {t : Token} {delivered ts : List Token}

theorem next_of_trivia (before : List Char) (hgap : Trivia gap []) :
    (⟨gap, .after before, []⟩ : Lexer).next =
      (.ok ⟨.eof, .after (before ++ gap)⟩, ⟨[], .after (before ++ gap), []⟩) := by
  have hskip := skipTrivia_of_trivia hgap (.after before)
  rw [List.append_nil] at hskip
  simp only [next, scan, hskip, Location.after_append]

theorem next_of_token {lexeme : List Char} (before : List Char) (hgap : Trivia gap (lexeme ++ rest))
    (hlongest : Longest lexeme rest) (hspells : Spells lexeme kind) :
    (⟨gap ++ lexeme ++ rest, .after before, []⟩ : Lexer).next =
      (.ok ⟨kind, .after (before ++ gap)⟩, ⟨rest, .after (before ++ gap ++ lexeme), []⟩) := by
  have hskip := skipTrivia_of_trivia hgap (.after before)
  obtain ⟨c, cs, htext⟩ := List.exists_cons_of_ne_nil (List.append_ne_nil_of_left_ne_nil hlongest.1.ne_nil rest)
  rw [htext] at hskip
  rw [List.append_assoc gap, htext]
  simp only [next, scan, hskip, read_of_token hlongest hspells htext.symm, Location.after_append]

theorem next_of_blocked {cause : LexError.Cause} (before : List Char) (hgap : Trivia gap rest)
    (h : Blocked rest cause) :
    ∃ l, (⟨gap ++ rest, .after before, []⟩ : Lexer).next = (.error ⟨cause, .after (before ++ gap)⟩, l) := by
  have hskip := skipTrivia_of_trivia hgap (.after before)
  obtain ⟨c, cs, rfl⟩ := List.exists_cons_of_ne_nil h.ne_nil
  exact ⟨_, by simp only [next, scan, hskip, read_of_blocked h, Location.after_append]; rfl⟩

theorem tokenize_go_of_eof (h : l.next = (.ok t, l')) (ht : t.kind = .eof) :
    tokenize.go delivered l = (.ok (t :: delivered).reverse, l') := by
  unfold tokenize.go
  split
  · rename_i hn
    cases h.symm.trans hn
  · rename_i hn
    cases h.symm.trans hn
    rw [dif_pos ht]

theorem tokenize_go_of_token (h : l.next = (.ok t, l')) (ht : t.kind ≠ .eof) :
    tokenize.go delivered l = tokenize.go (t :: delivered) l' := by
  rw [tokenize.go]
  split
  · rename_i hn
    cases h.symm.trans hn
  · rename_i hn
    cases h.symm.trans hn
    rw [dif_neg ht]

theorem tokenize_go_of_error {e : LexError} (h : l.next = (.error e, l')) :
    tokenize.go delivered l = (.error e, l') := by
  unfold tokenize.go
  split
  · rename_i hn
    cases h.symm.trans hn
    rfl
  · rename_i hn
    cases h.symm.trans hn

theorem tokenize_go_of_partitioned (h : Partitioned before text ts) (delivered : List Token) :
    tokenize.go delivered ⟨text, .after before, []⟩ =
      (.ok (delivered.reverse ++ ts), ⟨[], .after (before ++ text), []⟩) := by
  induction h generalizing delivered with
  | @last before gap hgap => rw [tokenize_go_of_eof (next_of_trivia before hgap) rfl, List.reverse_cons]
  | @token before gap lexeme rest kind ts hgap hlongest hspells _ ih =>
    rw [tokenize_go_of_token (next_of_token before hgap hlongest hspells) hspells.ne_eof, ih]
    simp

theorem tokenize_go_of_stuck {e : LexError} (h : Stuck before text e) (delivered : List Token) :
    (tokenize.go delivered ⟨text, .after before, []⟩).1 = .error e := by
  induction h generalizing delivered with
  | @here before gap rest cause hgap hblocked =>
    obtain ⟨l, hnext⟩ := next_of_blocked before hgap hblocked
    rw [tokenize_go_of_error hnext]
  | @behind before gap lexeme rest kind e hgap hlongest hspells _ ih =>
    rw [tokenize_go_of_token (next_of_token before hgap hlongest hspells) hspells.ne_eof, ih]

theorem tokenize_of_partitioned {source : String} (h : Partitioned [] source.toList ts) :
    (ofString source).tokenize = (.ok ts, ⟨[], .after source.toList, []⟩) :=
  tokenize_go_of_partitioned h []

theorem tokenize_of_stuck {source : String} {e : LexError} (h : Stuck [] source.toList e) :
    (ofString source).tokenize.1 = .error e :=
  tokenize_go_of_stuck h []

theorem partitioned_of_tokenize {source : String} (h : (ofString source).tokenize.1 = .ok ts) :
    Partitioned [] source.toList ts := by
  rcases partitioned_or_stuck [] source.toList with ⟨ts', hts⟩ | ⟨e, he⟩
  · rw [tokenize_of_partitioned hts] at h
    cases h
    exact hts
  · cases (tokenize_of_stuck he).symm.trans h

theorem stuck_of_tokenize {source : String} {e : LexError} (h : (ofString source).tokenize.1 = .error e) :
    Stuck [] source.toList e := by
  rcases partitioned_or_stuck [] source.toList with ⟨ts, hts⟩ | ⟨e', he⟩
  · rw [tokenize_of_partitioned hts] at h
    cases h
  · cases (tokenize_of_stuck he).symm.trans h
    exact he

/-- The lexer cuts every text as `Partitioned` and `Stuck` say. The tokens of a text end with the end of the text,
which is then delivered again and again. -/
theorem tokenize_iff_partitioned (source : String) :
    (∀ ts, (ofString source).tokenize.1 = .ok ts ↔ Partitioned [] source.toList ts) ∧
    (∀ e, (ofString source).tokenize.1 = .error e ↔ Stuck [] source.toList e) ∧
    ∀ ts, (ofString source).tokenize.1 = .ok ts →
      ∃ us last, ts = us ++ [last] ∧ last = ⟨.eof, .after source.toList⟩ ∧
        (ofString source).tokenize.2.next = (.ok last, (ofString source).tokenize.2) := by
  refine ⟨fun ts => ⟨partitioned_of_tokenize, fun h => ?_⟩, fun e => ⟨stuck_of_tokenize, tokenize_of_stuck⟩,
    fun ts h => ?_⟩
  · rw [tokenize_of_partitioned h]
  · have hts := partitioned_of_tokenize h
    obtain ⟨us, hus⟩ := hts.getLast
    rw [tokenize_of_partitioned hts]
    exact ⟨us, _, hus, rfl, rfl⟩

theorem zeros_partitioned :
    Partitioned [] "x= 007//end".toList
      [⟨.ident "x", ⟨1, 1⟩⟩, ⟨.assign, ⟨1, 2⟩⟩, ⟨.number 7, ⟨1, 4⟩⟩, ⟨.eof, ⟨1, 12⟩⟩] ∧
    Stuck [] "a &&\n &1".toList ⟨.unexpectedCharacter '&', ⟨2, 2⟩⟩ ∧
    (ofString "x= 007//end").tokenize.2.next = (.ok ⟨.eof, ⟨1, 12⟩⟩, (ofString "x= 007//end").tokenize.2) := by
  have hok : (ofString "x= 007//end").tokenize.1 =
      .ok [⟨.ident "x", ⟨1, 1⟩⟩, ⟨.assign, ⟨1, 2⟩⟩, ⟨.number 7, ⟨1, 4⟩⟩, ⟨.eof, ⟨1, 12⟩⟩] := by decide +kernel
  have herror : (ofString "a &&\n &1").tokenize.1 = .error ⟨.unexpectedCharacter '&', ⟨2, 2⟩⟩ := by decide +kernel
  obtain ⟨us, last, -, hlast, hnext⟩ := (tokenize_iff_partitioned "x= 007//end").2.2 _ hok
  have hafter : Location.after "x= 007//end".toList = ⟨1, 12⟩ := by decide
  rw [hlast, hafter] at hnext
  exact ⟨((tokenize_iff_partitioned _).1 _).1 hok, ((tokenize_iff_partitioned _).2.1 _).1 herror, hnext⟩

end Lexer

end Wordlang
