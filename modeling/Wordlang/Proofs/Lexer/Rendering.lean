import Wordlang.Proofs.Lexer.Partition
import Wordlang.Proofs.Printer.Spelling

/-!
# Tokenizing undoes rendering

Tokens are rendered as their spellings, with separators between them. A separator may be left out where the two
spellings do not run together. However that is done, the lexer reads the tokens back.
-/

namespace Wordlang

open Lexeme

/-! ## Rendering -/

/-- Blanks, and comments that end with their line. -/
inductive Filler : List Char → Prop
  | nil : Filler []
  | blank {c : Char} {cs : List Char} : isBlank c = true → Filler cs → Filler (c :: cs)
  | comment {body cs : List Char} : '\n' ∉ body → Filler cs → Filler ('/' :: '/' :: (body ++ '\n' :: cs))

/-- What keeps two lexemes apart. -/
inductive Separator : List Char → Prop
  | blank {c : Char} {cs : List Char} : isBlank c = true → Filler cs → Separator (c :: cs)

/-- Two lexemes that do not run together. -/
def Token.Kind.MayTouch (a b : Token.Kind) : Prop :=
  ¬ ((∀ c ∈ a.spelling.toList, isNameChar c = true) ∧ ∀ c ∈ b.spelling.toList, isNameChar c = true) ∧
  ¬ (a = .assign ∧ (b = .assign ∨ b = .equal)) ∧ ¬ (a = .slash ∧ b = .slash)

instance (a b : Token.Kind) : Decidable (a.MayTouch b) :=
  have (kind : Token.Kind) : Decidable (∀ c ∈ kind.spelling.toList, isNameChar c = true) :=
    List.decidableBAll _ _
  inferInstanceAs (Decidable (_ ∧ _))

/-- A text that renders tokens of the given kinds. -/
inductive Rendered : List Token.Kind → List Char → Prop
  | nil : Rendered [] []
  | single (kind : Token.Kind) : Rendered [kind] kind.spelling.toList
  | apart {a b : Token.Kind} {kinds : List Token.Kind} {gap text : List Char} :
    Separator gap → Rendered (b :: kinds) text →
    Rendered (a :: b :: kinds) (a.spelling.toList ++ (gap ++ text))
  | touching {a b : Token.Kind} {kinds : List Token.Kind} {text : List Char} :
    a.MayTouch b → Rendered (b :: kinds) text → Rendered (a :: b :: kinds) (a.spelling.toList ++ text)

theorem Separator.filler {gap : List Char} (h : Separator gap) : Filler gap := by
  cases h with
  | blank hc hcs => exact .blank hc hcs

theorem Filler.trivia {gap rest : List Char} (h : Filler gap) (hrest : ¬ StartsTrivia rest) : Trivia gap rest := by
  induction h with
  | nil => exact .nil hrest
  | blank hc _ ih => exact .blank hc ih
  | comment hbody _ ih => exact .comment hbody ih

/-! ## Spellings -/

namespace Token.Kind

variable {kind : Token.Kind} {cs rest : List Char} {c : Char}

theorem spells_number {value : Word} (h : 0 ≤ value) : Spells value.text.toList (.number value) := by
  obtain ⟨htext, hvalue⟩ := Word.natAbs_of_nonneg (Int64.not_lt.2 h)
  have hnonneg : 0 ≤ value.toInt := Int64.le_iff_toInt_le.1 h
  rw [htext, Nat.toList_repr]
  refine .number ⟨Nat.toDigits_ne_nil, fun c hc => ?_⟩ ?_
  · exact Nat.isDigit_of_mem_toDigits (by decide) (by decide) hc
  · rw [← ofDigitChars_eq_decimal, Nat.ofDigitChars_ten_toDigits, Int.natAbs_of_nonneg hnonneg]

/-- Every token but the end of the text is spelled by a lexeme. -/
theorem Valid.spells (h : kind.Valid) (heof : kind ≠ .eof) : Spells kind.spelling.toList kind := by
  cases kind with
  | number value => exact spells_number h
  | ident name => exact .identifier h
  | eof => exact absurd rfl heof
  | kwIf | kwElse | kwVar | kwFunc | kwProc | kwReturn => exact .keyword (by decide)
  | _ => exact .symbol (by decide)

end Token.Kind

namespace Lexeme

open Token.Kind

variable {kind : Token.Kind} {cs rest : List Char} {c : Char}

theorem IsLexeme.isNameChar (h : IsLexeme (c :: cs)) (hc : isNameChar c = true) :
    ∀ d ∈ c :: cs, isNameChar d = true := by
  generalize htext : c :: cs = text at h
  cases h with
  | word hword =>
    rw [← htext, isWord, Bool.and_eq_true, List.all_eq_true] at hword
    exact htext ▸ List.forall_mem_cons.2 ⟨hc, hword.2⟩
  | digits hdigits => exact fun d hd => isNameChar_of_isDigit (hdigits.2 d hd)
  | symbol hkind => exact absurd hc (by simp [not_isNameChar_of_symbol _ hkind c (by rw [← htext]; rfl)])

theorem isNameChar_of_isWord (h : isWord cs = true) : ∀ c ∈ cs, isNameChar c = true := by
  obtain ⟨c, cs, rfl⟩ := List.exists_cons_of_ne_nil (IsLexeme.word h).ne_nil
  have hc := h
  rw [isWord, Bool.and_eq_true] at hc
  exact (IsLexeme.word h).isNameChar (isNameChar_of_isNameStart hc.1)

/-- A lexeme that is no symbol is made of name characters. -/
theorem Spells.isNameChar (h : Spells cs kind) (hkind : kind ∉ symbols) : ∀ c ∈ cs, isNameChar c = true := by
  cases h with
  | number hdigits _ => exact fun c hc => isNameChar_of_isDigit (hdigits.2 c hc)
  | identifier hname => exact isNameChar_of_isWord hname.1
  | keyword h => exact isNameChar_of_isWord (keyword?_of_mem_keywords _ h).1
  | symbol h => exact absurd h hkind

/-- A word or a numeral ends where no name character follows. -/
theorem longest_of_ends (hlexeme : IsLexeme cs) (hname : ∀ c ∈ cs, isNameChar c = true) (hrest : Ends rest) :
    Longest cs rest := by
  refine ⟨hlexeme, fun longer hlonger hprefix => ?_⟩
  by_contra hlt
  -- A longer lexeme would go on with a name character, as it starts with one.
  obtain ⟨more, rfl⟩ := List.prefix_of_prefix_length_le (List.prefix_append cs rest) hprefix (by omega)
  obtain ⟨c, cs, rfl⟩ := List.exists_cons_of_ne_nil hlexeme.ne_nil
  cases more with
  | nil => simp at hlt
  | cons d more =>
    obtain ⟨rest, rfl⟩ := (List.prefix_append_right_inj _).1 hprefix
    have hd := hlonger.isNameChar (hname c List.mem_cons_self) d (by simp)
    exact absurd hd (by simp [hrest d rfl])

/-- A symbol of one character ends there, unless it is `=` and another one follows. -/
theorem pair?_of_single {d : Char} (h : single? c = some kind) (hassign : kind = .assign → d ≠ '=') :
    pair? c d = none := by
  unfold pair?
  split
  · cases h
    exact absurd rfl (hassign rfl)
  · cases h
  · cases h
  · cases h
  · rfl

theorem longest_symbol (hkind : kind ∈ symbols) (hassign : kind = .assign → ∀ d ∈ rest.head?, d ≠ '=') :
    Longest kind.spelling.toList rest := by
  obtain ⟨c, cs, hcs⟩ := List.exists_cons_of_ne_nil (symbol_ne_nil kind hkind)
  have hname := not_isNameChar_of_symbol kind hkind c (by rw [hcs]; rfl)
  have hdigit : ¬ c.isDigit = true := fun h => by simp [isNameChar_of_isDigit h] at hname
  have hstart : ¬ isNameStart c = true := fun h => by simp [isNameChar_of_isNameStart h] at hname
  rw [hcs]
  rcases symbol_shape hkind hcs with ⟨rfl, hsingle⟩ | ⟨d, rfl, hpair⟩
  · refine (longest_single hdigit hstart hsingle fun d hd => ?_).1
    exact pair?_of_single hsingle fun h => hassign h d hd
  · exact (longest_pair rest hdigit hstart hpair).1

theorem symbol_head : ∀ kind ∈ symbols, ∀ c ∈ kind.spelling.toList.head?,
    isBlank c = false ∧ (c = '/' → kind = .slash) ∧ (c = '=' → kind = .assign ∨ kind = .equal) := by
  have hall : ∀ kind ∈ symbols, kind.spelling.toList.head?.all (fun c => decide (isBlank c = false ∧
      (c = '/' → kind = .slash) ∧ (c = '=' → kind = .assign ∨ kind = .equal))) = true := by decide
  intro kind hkind c hc
  exact of_decide_eq_true ((Option.all_eq_true _ _).1 (hall kind hkind) c hc)

theorem not_startsTrivia_of_symbol (hkind : kind ∈ symbols) (hslash : kind = .slash → ∀ d ∈ rest.head?, d ≠ '/') :
    ¬ StartsTrivia (kind.spelling.toList ++ rest) := by
  obtain ⟨c, cs, hcs⟩ := List.exists_cons_of_ne_nil (symbol_ne_nil kind hkind)
  obtain ⟨hblank, hc, -⟩ := symbol_head kind hkind c (by rw [hcs]; rfl)
  rintro (⟨d, hd, hdblank⟩ | hprefix)
  · rw [hcs] at hd
    cases hd
    simp [hblank] at hdblank
  · rw [hcs] at hprefix
    obtain rfl := (List.cons_prefix_cons.1 hprefix).1
    obtain rfl := hc rfl
    cases hcs
    obtain ⟨more, rfl⟩ := (List.cons_prefix_cons.1 hprefix).2
    exact hslash rfl '/' rfl rfl

theorem not_startsTrivia_of_isNameChar (hcs : cs ≠ []) (hname : ∀ c ∈ cs, isNameChar c = true) :
    ¬ StartsTrivia (cs ++ rest) := by
  obtain ⟨c, cs, rfl⟩ := List.exists_cons_of_ne_nil hcs
  obtain ⟨hblank, hslash⟩ := not_trivia_of_isNameChar (hname c List.mem_cons_self)
  rintro (⟨d, hd, hdblank⟩ | hprefix)
  · cases hd
    simp [hblank] at hdblank
  · exact hslash (List.cons_prefix_cons.1 hprefix).1.symm

end Lexeme

/-! ## Reading back -/

namespace Token.Kind

variable {kind a b : Token.Kind} {gap rest text : List Char}

/-- The text does not go on with a character that a token of this kind in front of it would run into. -/
def Stops (kind : Token.Kind) (rest : List Char) : Prop :=
  ∀ d ∈ rest.head?, (kind ∉ symbols → isNameChar d = false) ∧ (kind = .assign → d ≠ '=') ∧ (kind = .slash → d ≠ '/')

theorem Stops.token (h : kind.Stops rest) (hspells : Spells kind.spelling.toList kind) :
    Longest kind.spelling.toList rest ∧ ¬ StartsTrivia (kind.spelling.toList ++ rest) := by
  by_cases hkind : kind ∈ symbols
  · constructor
    · exact longest_symbol hkind fun hassign d hd => (h d hd).2.1 hassign
    · exact not_startsTrivia_of_symbol hkind fun hslash d hd => (h d hd).2.2 hslash
  · have hname := hspells.isNameChar hkind
    constructor
    · exact longest_of_ends hspells.isLexeme hname fun d hd => (h d hd).1 hkind
    · exact not_startsTrivia_of_isNameChar hspells.isLexeme.ne_nil hname

theorem stops_of_separator (kind : Token.Kind) (h : Separator gap) (text : List Char) : kind.Stops (gap ++ text) := by
  cases h with
  | @blank c cs hc _ =>
    rintro d ⟨rfl⟩
    refine ⟨fun _ => ?_, ?_, ?_⟩
    · by_contra hname
      simp [(not_trivia_of_isNameChar (Bool.not_eq_false _ ▸ hname)).1] at hc
    · rintro - rfl
      cases hc
    · rintro - rfl
      cases hc

theorem stops_of_mayTouch (h : a.MayTouch b) (ha : Spells a.spelling.toList a) (hb : Spells b.spelling.toList b)
    (text : List Char) : a.Stops (b.spelling.toList ++ text) := by
  obtain ⟨c, cs, hcs⟩ := List.exists_cons_of_ne_nil hb.isLexeme.ne_nil
  rw [hcs]
  rintro d ⟨rfl⟩
  by_cases hkind : b ∈ symbols
  · have hhead : c ∈ b.spelling.toList.head? := by
      rw [hcs]
      rfl
    obtain ⟨-, hslash, hassign⟩ := symbol_head b hkind c hhead
    refine ⟨fun _ => not_isNameChar_of_symbol b hkind c hhead, fun haa hc => ?_, fun hsa hc => ?_⟩
    · exact h.2.1 ⟨haa, hassign hc⟩
    · exact h.2.2 ⟨hsa, hslash hc⟩
  · have hname := hb.isNameChar hkind
    have hc : isNameChar c = true := hname c (hcs ▸ List.mem_cons_self)
    refine ⟨fun hsa => absurd ⟨ha.isNameChar hsa, hname⟩ h.1, ?_, ?_⟩
    · rintro - rfl
      cases hc
    · rintro - rfl
      cases hc

end Token.Kind

open Token.Kind

/-- One more token in front of a text that is cut already. -/
theorem Partitioned.behind {kind : Token.Kind} {before gap rest : List Char} {ts : List Token} (hgap : Filler gap)
    (hspells : Spells kind.spelling.toList kind) (hstops : kind.Stops rest)
    (h : Partitioned (before ++ gap ++ kind.spelling.toList) rest ts) :
    Partitioned before (gap ++ (kind.spelling.toList ++ rest)) (⟨kind, .after (before ++ gap)⟩ :: ts) := by
  obtain ⟨hlongest, htrivia⟩ := hstops.token hspells
  rw [← List.append_assoc]
  exact .token (hgap.trivia htrivia) hlongest hspells h

theorem Rendered.exists_append {kind : Token.Kind} {kinds : List Token.Kind} {text : List Char}
    (h : Rendered (kind :: kinds) text) : ∃ rest, text = kind.spelling.toList ++ rest := by
  cases h with
  | single => exact ⟨[], by simp⟩
  | apart _ _ => exact ⟨_, rfl⟩
  | touching _ _ => exact ⟨_, rfl⟩

/-- A rendering is cut into its tokens, whatever blanks and comments stand in front of it. -/
theorem Rendered.partitioned {kinds : List Token.Kind} {text : List Char} (h : Rendered kinds text)
    (hkinds : ∀ kind ∈ kinds, kind.Valid ∧ kind ≠ .eof) (before : List Char) {gap : List Char} (hgap : Filler gap) :
    ∃ ts, Partitioned before (gap ++ text) ts ∧ ts.map (·.kind) = kinds ++ [.eof] := by
  have hnil : ¬ StartsTrivia [] := by simp [StartsTrivia]
  -- A separator is cut off together with the token behind it, so the gap changes along the induction.
  induction h generalizing before gap with
  | nil =>
    rw [List.append_nil]
    exact ⟨_, .last (hgap.trivia hnil), rfl⟩
  | single kind =>
    obtain ⟨hvalid, heof⟩ := hkinds kind List.mem_cons_self
    have hstops : kind.Stops [] := by simp [Stops]
    have hlast : Partitioned (before ++ gap ++ kind.spelling.toList) [] [_] := .last (.nil hnil)
    have h := hlast.behind hgap (hvalid.spells heof) hstops
    rw [List.append_nil] at h
    exact ⟨_, h, rfl⟩
  | @apart a b kinds sep text hsep _ ih =>
    obtain ⟨ha, hkinds⟩ := List.forall_mem_cons.1 hkinds
    obtain ⟨ts, hts, hmap⟩ := ih hkinds (before ++ gap ++ a.spelling.toList) hsep.filler
    exact ⟨_, hts.behind hgap (ha.1.spells ha.2) (stops_of_separator a hsep text), by simp [hmap]⟩
  | @touching a b kinds text htouch hrest ih =>
    obtain ⟨ha, hkinds⟩ := List.forall_mem_cons.1 hkinds
    obtain ⟨hb, -⟩ := List.forall_mem_cons.1 hkinds
    have hspells := ha.1.spells ha.2
    obtain ⟨ts, hts, hmap⟩ := ih hkinds (before ++ gap ++ a.spelling.toList) .nil
    obtain ⟨rest, rfl⟩ := hrest.exists_append
    have hstops := stops_of_mayTouch htouch hspells (hb.1.spells hb.2) rest
    exact ⟨_, hts.behind hgap hspells hstops, by simp [hmap]⟩

/-- The tokens of a rendering are those that were rendered. -/
theorem Lexer.tokenize_of_rendered {kinds : List Token.Kind} {text : List Char}
    (hkinds : ∀ kind ∈ kinds, kind.Valid ∧ kind ≠ .eof) (h : Rendered kinds text) :
    ∃ ts, (ofString (String.ofList text)).tokenize.1 = .ok ts ∧ ts.map (·.kind) = kinds ++ [.eof] := by
  obtain ⟨ts, hts, hmap⟩ := h.partitioned hkinds [] .nil
  rw [List.nil_append, ← String.toList_ofList (l := text)] at hts
  exact ⟨ts, by rw [tokenize_of_partitioned hts], hmap⟩

theorem tokenize_of_slashes :
    ∃ ts, (Lexer.ofString "a/\t//x/\n/7===").tokenize.1 = .ok ts ∧
      ts.map (·.kind) = [.ident "a", .slash, .slash, .number 7, .equal, .assign, .eof] := by
  have hfiller : Filler ('/' :: '/' :: (['x', '/'] ++ '\n' :: [])) := .comment (by decide) .nil
  have htail : Rendered [.slash, .number 7, .equal, .assign] "/7===".toList :=
    .touching (by decide) (.touching (by decide) (.touching (by decide) (.single .assign)))
  have h : Rendered [.ident "a", .slash, .slash, .number 7, .equal, .assign] "a/\t//x/\n/7===".toList :=
    .touching (by decide) (.apart (.blank (c := '\t') rfl hfiller) htail)
  refine Lexer.tokenize_of_rendered ?_ h
  simp only [List.forall_mem_cons, List.not_mem_nil, false_imp_iff, implies_true, and_true, Token.Kind.Valid]
  decide

end Wordlang
