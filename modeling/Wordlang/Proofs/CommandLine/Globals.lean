import Wordlang.CommandLine.Options
import Wordlang.Proofs.Code.Assembly
import Wordlang.Proofs.Lexer.Rendering

/-!
# Globals of the command line as names in a program

The names of globals are checked character by character, without the lexer. Both have the same words, and white space
around a name or a value does not matter. But the check does not know the keywords: a global may be declared under
one, and then no program can name it.

Main statement: `CommandLine.globals_are_words`.
-/

namespace Wordlang

open Lexeme

/-! ## Words -/

/-- The text is a single token of the given kind. -/
def ReadAs (text : String) (kind : Token.Kind) : Prop :=
  (Lexer.ofString text).tokenize.1 = .ok [⟨kind, .start⟩, ⟨.eof, .after text.toList⟩]

theorem readAs_of_spells {text : String} {kind : Token.Kind} (h : Spells text.toList kind)
    (hword : isWord text.toList = true) : ReadAs text kind := by
  have hgap : Trivia [] text.toList := by
    refine .nil ?_
    obtain ⟨c, cs, hcs⟩ := List.exists_cons_of_ne_nil h.isLexeme.ne_nil
    obtain ⟨hblank, hslash⟩ := not_trivia_of_isNameChar (isNameChar_of_isWord hword c (hcs ▸ List.mem_cons_self))
    rw [hcs]
    rintro (⟨d, hd, hd'⟩ | hcomment)
    · cases hd
      simp [hblank] at hd'
    · exact hslash (List.cons_prefix_cons.1 hcomment).1.symm
  have hlongest : Longest text.toList [] := longest_of_ends h.isLexeme (isNameChar_of_isWord hword) (by simp [Ends])
  have hlast : Partitioned text.toList [] [⟨.eof, .after (text.toList ++ [])⟩] := .last (.nil (by simp [StartsTrivia]))
  have h : Partitioned [] ([] ++ text.toList ++ []) [⟨kind, .start⟩, ⟨.eof, .after (text.toList ++ [])⟩] :=
    .token (by simpa using hgap) hlongest h hlast
  simp only [List.nil_append, List.append_nil] at h
  rw [ReadAs, Lexer.tokenize_of_partitioned h]

theorem Partitioned.spells {before text : List Char} {t : Token} {ts : List Token}
    (h : Partitioned before text (t :: ts)) (ht : t.kind ≠ .eof) : ∃ lexeme, Spells lexeme t.kind := by
  cases h with
  | last _ => exact absurd rfl ht
  | token _ _ hspells _ => exact ⟨_, hspells⟩

theorem isWord_of_readAs {name : String} (h : ReadAs name (.ident name)) : isWord name.toList = true := by
  obtain ⟨lexeme, hspells⟩ := (Lexer.partitioned_of_tokenize h).spells (by simp)
  cases hspells with
  | identifier hname => exact hname.1
  | keyword hkind => exact absurd hkind (by simp [Token.Kind.keywords])
  | symbol hkind => exact absurd hkind (by simp [Token.Kind.symbols])

end Wordlang

namespace Wordlang.CommandLine

open Lexeme

/-- The check on the name of a global accepts the words of the lexer. -/
theorem isName_eq_isWord (cs : List Char) : isName cs = isWord cs := by
  cases cs with
  | nil => rfl
  | cons c cs =>
    rw [isName, isWord, List.all_cons]
    by_cases hc : isNameStart c = true
    · rw [hc, isNameChar_of_isNameStart hc, Bool.true_and]
    · simp [hc]

/-! ## White space -/

theorem not_isWhiteSpace_of_isNameChar {c : Char} (h : isNameChar c = true) : isWhiteSpace c = false := by
  have hname : isNameChar c = (decide (c.val ≥ 'A'.val ∧ c.val ≤ 'Z'.val) ||
      (c.val ≥ 'a'.val && c.val ≤ 'z'.val) || (c.val ≥ '0'.val && c.val ≤ '9'.val) || c == '_') := rfl
  have hrange : 0x30 ≤ c.toNat ∧ c.toNat ≤ 0x7A := by
    simp only [hname, Bool.or_eq_true, Bool.and_eq_true, decide_eq_true_eq, beq_iff_eq] at h
    rcases h with ((h | h) | h) | rfl
    case inr => decide
    all_goals exact ⟨Nat.le_trans (by decide) h.1, Nat.le_trans h.2 (by decide)⟩
  simp only [isWhiteSpace]
  grind

theorem not_isWhiteSpace_of_mem_text {value : Word} {c : Char} (h : c ∈ value.text.toList) :
    isWhiteSpace c = false := by
  rw [Word.text] at h
  cases hvalue : value.toInt with
  | ofNat n =>
    rw [hvalue] at h
    exact not_isWhiteSpace_of_isNameChar (isNameChar_of_isDigit (isDigit_of_mem_repr h))
  | negSucc n =>
    rw [hvalue, Int.repr, String.toList_append, List.mem_append] at h
    rcases h with hminus | hdigit
    · rw [List.mem_singleton.1 hminus]
      rfl
    · exact not_isWhiteSpace_of_isNameChar (isNameChar_of_isDigit (isDigit_of_mem_repr hdigit))

/-- What is left of a text without white space when there is white space around it. -/
theorem trim_append {left cs right : List Char} (hne : cs ≠ []) (hleft : ∀ c ∈ left, isWhiteSpace c = true)
    (hcs : ∀ c ∈ cs, isWhiteSpace c = false) (hright : ∀ c ∈ right, isWhiteSpace c = true) :
    trim (left ++ cs ++ right) = cs := by
  have hfirst : ∀ c ∈ (cs ++ right).head?, isWhiteSpace c = false := by
    intro c hc
    rw [List.head?_append_of_ne_nil _ hne] at hc
    exact hcs c (List.mem_of_mem_head? hc)
  have hlast : ∀ c ∈ cs.reverse.head?, isWhiteSpace c = false := by
    intro c hc
    exact hcs c (List.mem_reverse.1 (List.mem_of_mem_head? hc))
  have hright' : ∀ c ∈ right.reverse, isWhiteSpace c = true := fun c hc => hright c (List.mem_reverse.1 hc)
  rw [trim, List.append_assoc, (span_append hleft hfirst).2, List.reverse_append, (span_append hright' hlast).2,
    List.reverse_reverse]

theorem cutAtEquals?_append {left : List Char} (h : '=' ∉ left) (right : List Char) :
    cutAtEquals? (left ++ '=' :: right) = some (left, right) := by
  have hleft : ∀ c ∈ left, (c != '=') = true := by
    intro c hc
    rw [bne_iff_ne]
    rintro rfl
    exact h hc
  have hright : ∀ c ∈ ('=' :: right).head?, (c != '=') = false := by simp
  obtain ⟨htake, hdrop⟩ := span_append hleft hright
  rw [cutAtEquals?, hdrop, htake]

/-! ## Globals -/

theorem isWord_of_readGlobal {text name : String} {value : Word} (h : readGlobal text = .ok (name, value)) :
    isWord name.toList = true := by
  unfold readGlobal at h
  split at h
  · cases h
  · rename_i left right hcut
    simp only at h
    split at h
    · rename_i hname
      split at h
      · cases h
        rw [String.toList_ofList, ← isName_eq_isWord]
        exact hname
      · cases h
    · cases h

theorem readGlobal_of_isWord {name : String} (h : isWord name.toList = true) (value : Word)
    {w₁ w₂ w₃ w₄ : List Char} (hwhite : ∀ c ∈ w₁ ++ w₂ ++ w₃ ++ w₄, isWhiteSpace c = true) :
    readGlobal (String.ofList (w₁ ++ name.toList ++ w₂ ++ '=' :: (w₃ ++ value.text.toList ++ w₄))) =
      .ok (name, value) := by
  simp only [List.forall_mem_append] at hwhite
  obtain ⟨⟨⟨h₁, h₂⟩, h₃⟩, h₄⟩ := hwhite
  have hchars := isNameChar_of_isWord h
  have hequals : '=' ∉ w₁ ++ name.toList ++ w₂ := by
    simp only [List.mem_append, not_or]
    refine ⟨⟨fun hmem => ?_, fun hmem => ?_⟩, fun hmem => ?_⟩
    · cases h₁ _ hmem
    · cases hchars _ hmem
    · cases h₂ _ hmem
  have hname : trim (w₁ ++ name.toList ++ w₂) = name.toList :=
    trim_append (IsLexeme.word h).ne_nil h₁ (fun c hc => not_isWhiteSpace_of_isNameChar (hchars c hc)) h₂
  have hvalue : trim (w₃ ++ value.text.toList ++ w₄) = value.text.toList := by
    refine trim_append ?_ h₃ (fun c hc => not_isWhiteSpace_of_mem_text hc) h₄
    intro hnil
    have hread := Numeral.read_text value
    rw [hnil] at hread
    cases hread
  simp only [readGlobal, String.toList_ofList, cutAtEquals?_append hequals, hname, hvalue, isName_eq_isWord, h,
    Numeral.read_text, String.ofList_toList, if_true]

/-- The name of a global that the command line accepts is a word. If it is no keyword, then it is read as the
identifier in a program, and otherwise as the keyword. In turn, every identifier and every keyword can be declared with
every value, with white space around both. -/
theorem globals_are_words {name : String} {value : Word} :
    (∀ text, readGlobal text = .ok (name, value) →
      (Token.Kind.keyword? name = none → ReadAs name (.ident name)) ∧
      ∀ kind, Token.Kind.keyword? name = some kind → ReadAs name kind) ∧
    ((ReadAs name (.ident name) ∨ ∃ kind, Token.Kind.keyword? name = some kind) →
      ∀ w₁ w₂ w₃ w₄ : List Char, (∀ c ∈ w₁ ++ w₂ ++ w₃ ++ w₄, isWhiteSpace c = true) →
        readGlobal (String.ofList (w₁ ++ name.toList ++ w₂ ++ '=' :: (w₃ ++ value.text.toList ++ w₄))) =
          .ok (name, value)) := by
  constructor
  · intro text h
    have hword := isWord_of_readGlobal h
    refine ⟨fun hnone => readAs_of_spells (.identifier ⟨hword, hnone⟩) hword, fun kind hkind => ?_⟩
    obtain ⟨hmem, hspelling⟩ := mem_keywords_of_keyword? hkind
    exact readAs_of_spells (hspelling ▸ .keyword hmem) hword
  · intro hname w₁ w₂ w₃ w₄ hwhite
    refine readGlobal_of_isWord ?_ value hwhite
    rcases hname with hident | ⟨kind, hkind⟩
    · exact isWord_of_readAs hident
    · obtain ⟨hmem, hspelling⟩ := mem_keywords_of_keyword? hkind
      exact hspelling ▸ (keyword?_of_mem_keywords kind hmem).1

/-- A global can be declared under the name `if`, which is a keyword, and under the name `iF`, which is not. -/
theorem declared_if_is_keyword :
    readGlobal "if=1" = .ok ("if", 1) ∧ ReadAs "if" .kwIf ∧
    readGlobal " iF\t= -7\u3000" = .ok ("iF", -7) ∧ ReadAs "iF" (.ident "iF") := by
  have hkeyword : Token.Kind.keyword? "if" = some .kwIf := rfl
  have hshort : "if=1" = String.ofList ([] ++ "if".toList ++ [] ++ '=' :: ([] ++ (1 : Word).text.toList ++ [])) := by
    decide +kernel
  have hif : readGlobal "if=1" = .ok ("if", 1) := by
    rw [hshort]
    exact globals_are_words.2 (.inr ⟨_, hkeyword⟩) _ _ _ _ (by simp)
  have htext : " iF\t= -7\u3000" = String.ofList ([' '] ++ "iF".toList ++ ['\t'] ++
      '=' :: ([' '] ++ (-7 : Word).text.toList ++ ['\u3000'])) := by decide +kernel
  have hwhite : ([' '] ++ ['\t'] ++ [' '] ++ ['\u3000']).all isWhiteSpace = true := by decide
  have hiF : readGlobal " iF\t= -7\u3000" = .ok ("iF", -7) := by
    rw [htext]
    exact globals_are_words.2 (.inl (by unfold ReadAs; decide +kernel)) _ _ _ _ (List.all_eq_true.1 hwhite)
  exact ⟨hif, (globals_are_words.1 _ hif).2 _ hkeyword, hiF, (globals_are_words.1 _ hiF).1 rfl⟩

end Wordlang.CommandLine
