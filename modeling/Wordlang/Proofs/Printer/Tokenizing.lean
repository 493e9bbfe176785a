import Wordlang.Proofs.Lexer.Partition
import Wordlang.Proofs.Parser.Completeness
import Wordlang.Proofs.Printer.Spelling

/-!
# Tokenizing the text of a tree

The lexer reads the text of a tree as the tokens of the tree, with one exception. The least word is written as a
difference whose right operand is one more than the greatest word, and the lexer refuses that numeral.

Main statement: `Program.tokenize_text`.
-/

namespace Wordlang

open Grammar Lexer

namespace Lexer

open Lexeme

variable {cause : LexError.Cause} {c : Char} {cs mid rest : List Char} {us : List Placed} {l l' : Lexer}

/-! ## Texts that the lexer refuses -/

/-- Behind some tokens, the lexer refuses what the text goes on with. -/
def Sticks (cause : LexError.Cause) (cs : List Char) : Prop :=
  ∀ loc, ∃ us l loc', Reads ⟨cs, loc, []⟩ us l ∧ l.next.1 = .error ⟨cause, loc'⟩

namespace Sticks

theorem behind (h : Scans cs us mid) (h' : Sticks cause mid) : Sticks cause cs := by
  intro loc
  obtain ⟨loc₁, hr⟩ := h loc
  obtain ⟨vs, l, loc', hr', he⟩ := h' loc₁
  exact ⟨us ++ vs, l, loc', hr.append hr', he⟩

theorem blank (hc : isBlank c = true) (h : Sticks cause cs) : Sticks cause (c :: cs) :=
  behind (.blank hc (.nil cs)) h

theorem indented (level : Nat) (h : Sticks cause cs) : Sticks cause ((indent level).toList ++ cs) :=
  behind (scans_indent level (.nil cs)) h

theorem single (h : (single? c).isSome = true ∧ c ≠ '=' ∧ c ≠ '/') (h' : Sticks cause cs) :
    Sticks cause (c :: cs) := by
  obtain ⟨kind, hkind⟩ := Option.isSome_iff_exists.1 h.1
  exact behind (.single 0 ⟨hkind, h.2⟩) h'

theorem numeral {n : Nat} (hn : Word.maxNat < n) (hrest : Ends rest) :
    Sticks (.literalOutOfRange n.repr.toList) (n.repr.toList ++ rest) := by
  intro loc
  obtain ⟨c, cs, hcs, hc, hread⟩ := read_numeral n hrest
  rw [literal_numeral, if_neg (Nat.not_le_of_lt hn)] at hread
  obtain ⟨hblank, hslash⟩ := not_trivia_of_isNameChar (isNameChar_of_isDigit hc)
  have hskip := skipTrivia_cons loc hblank (.inl hslash : c ≠ '/' ∨ (cs ++ rest).head? ≠ some '/')
  refine ⟨[], _, loc, Reads.nil_iff.2 rfl, ?_⟩
  rw [hcs, List.cons_append]
  rw [hcs] at hread
  simp only [next, scan, hskip, hread]

/-- Texts with commas between them, the first bad one behind good ones. -/
theorem separated {α : Type} (text : α → String) (tokens : α → List Placed) {P : α → Prop} {xs : List α}
    (hscan : ∀ x ∈ xs, P x → ∀ rest, Ends rest → Scans ((text x).toList ++ rest) (tokens x) rest)
    (hstick : ∀ x ∈ xs, ¬ P x → ∀ rest, Sticks cause ((text x).toList ++ rest)) (h : ¬ ∀ x ∈ xs, P x)
    (rest : List Char) : Sticks cause ((", ".intercalate (xs.map text)).toList ++ rest) := by
  induction xs with
  | nil => exact absurd (by simp) h
  | cons x xs ih =>
    rw [List.forall_mem_cons] at hscan hstick h
    cases xs with
    | nil =>
      have hx : ¬ P x := fun hx => h ⟨hx, by simp⟩
      simpa [List.intercalate] using hstick.1 hx rest
    | cons y ys =>
      rw [text_separated]
      by_cases hx : P x
      · refine behind (hscan.1 hx _ (Lexeme.ends_cons _ rfl)) (single (by decide) (blank rfl ?_))
        exact ih hscan.2 hstick.2 fun hys => h ⟨hx, hys⟩
      · exact hstick.1 hx _

end Sticks

/-! ## From what is delivered to the list of tokens -/

/-- A lexer that reads the end from its text has nothing else to deliver. -/
theorem scan_eof {loc : Location} {t : Token} (h : scan loc rest = (.ok t, l)) (ht : t.kind = .eof) :
    l.rest = [] := by
  unfold scan at h
  split at h
  · cases h
    rfl
  · rename_i c cs _
    dsimp only at h
    split at h
    · rename_i kind hk
      cases h
      have hhead := head_read c cs
      generalize c :: cs = text, read c cs = lexeme at hhead hk
      cases hhead with
      | token hlongest hspells =>
        cases hk
        exact absurd ht hspells.ne_eof
      | blocked => cases hk
    · cases h

/-- Before an error there is no end of the text. -/
theorem Reads.ne_eof {e : LexError} (h : l.Reads us l') (hl : l.pushback = []) (he : l'.next.1 = .error e) :
    ∀ u ∈ us, u.1 ≠ .eof := by
  -- behind the end of the text, the lexer delivers nothing but that end
  have hend : ∀ {vs loc}, ¬ (⟨[], loc, []⟩ : Lexer).Reads vs l' := by
    intro vs
    induction vs with
    | nil =>
      intro loc hr
      rw [Reads.nil_iff, stream_eq, stream_eq l', he] at hr
      exact absurd (Stream'.cons_injective2 hr).1 (by simp [next, scan, skipTrivia])
    | cons v vs ih =>
      intro loc hr
      obtain ⟨t, l₁, -, hd, hr⟩ := hr.uncons
      have hd' : (⟨[], loc, []⟩ : Lexer).Delivers ⟨.eof, loc⟩ ⟨[], loc, []⟩ := delivers_of_next rfl
      exact ih (hr.congr_left (hd'.inj hd).2)
  induction us generalizing l with
  | nil => simp
  | cons u us ih =>
    obtain ⟨t, l₁, ht, hd, hr⟩ := h.uncons
    obtain ⟨l₂, hnext, hs⟩ := hd.next
    have hscan : scan l.loc l.rest = (.ok t, l₂) := by
      rw [← hnext]
      simp only [next, hl]
    have hl₂ : l₂.pushback = [] := (scan_ok hscan).2
    refine List.forall_mem_cons.2 ⟨fun hu => ?_, ih (hr.congr_left hs) hl₂⟩
    have hrest := scan_eof hscan (ht.trans hu)
    obtain ⟨rest₂, loc₂, pushback₂⟩ := l₂
    simp only at hl₂ hrest
    subst hl₂ hrest
    exact hend (hr.congr_left hs)

/-- Tokens other than the end are delivered first, whatever comes then. -/
theorem tokenize_go_of_reads (h : l.Reads us l') (hne : ∀ u ∈ us, u.1 ≠ .eof) (delivered : List Token) :
    ∃ (ts : List Token) (l₁ : Lexer), ts.map (·.kind) = us.map (·.1) ∧ l₁.stream = l'.stream ∧
      tokenize.go delivered l = tokenize.go (ts.reverse ++ delivered) l₁ := by
  induction us generalizing l delivered with
  | nil => exact ⟨[], l, rfl, Reads.nil_iff.1 h, rfl⟩
  | cons u us ih =>
    rw [List.forall_mem_cons] at hne
    obtain ⟨t, l₁, ht, hd, hr⟩ := h.uncons
    obtain ⟨l₂, hnext, hs⟩ := hd.next
    obtain ⟨ts, l₃, hts, hs₃, hgo⟩ := ih (hr.congr_left hs) hne.2 (t :: delivered)
    refine ⟨t :: ts, l₃, by rw [List.map_cons, List.map_cons, ht, hts], hs₃, ?_⟩
    rw [tokenize_go_of_token hnext (ht ▸ hne.1), hgo, List.reverse_cons, List.append_assoc, List.singleton_append]

theorem tokenize_of_reads {depth : Nat} (h : l.Reads (us ++ [(.eof, depth)]) l') (hne : ∀ u ∈ us, u.1 ≠ .eof) :
    ∃ ts, l.tokenize.1 = .ok ts ∧ ts.map (·.kind) = us.map (·.1) ++ [.eof] := by
  obtain ⟨l₁, hus, hend⟩ := h.split
  obtain ⟨ts, l₂, hts, hs, hgo⟩ := tokenize_go_of_reads hus hne []
  obtain ⟨t, l₃, ht, hd, -⟩ := (hend.congr_left hs).uncons
  obtain ⟨l₄, hnext, -⟩ := hd.next
  refine ⟨ts ++ [t], ?_, by simp [hts, ht]⟩
  rw [tokenize, hgo, tokenize_go_of_eof hnext ht]
  simp

theorem Sticks.tokenize {source : String} (h : Sticks cause source.toList) :
    ∃ loc, (ofString source).tokenize.1 = .error ⟨cause, loc⟩ := by
  obtain ⟨us, l, loc, hr, he⟩ := h .start
  obtain ⟨ts, l₁, -, hs, hgo⟩ := tokenize_go_of_reads hr (hr.ne_eof rfl he) []
  rw [stream_eq, stream_eq l, he] at hs
  have hnext : l₁.next = (.error ⟨cause, loc⟩, l₁.next.2) := Prod.ext (Stream'.cons_injective2 hs).1 rfl
  exact ⟨loc, by rw [Lexer.tokenize, ofString, hgo, tokenize_go_of_error hnext]⟩

end Lexer

/-! ## The text of the least word -/

/-- What the lexer says of the least word's numeral. -/
def leastOutOfRange : LexError.Cause := .literalOutOfRange "9223372036854775808".toList

theorem Word.eq_minValue {value : Word} (h : ¬ Int64.minValue < value) : value = Int64.minValue :=
  Int64.le_antisymm (Int64.not_lt.1 h) (Int64.minValue_le value)

theorem Expr.sticks_least (rest : List Char) :
    Sticks leastOutOfRange ((Expr.num Int64.minValue).text.toList ++ rest) := by
  have hcause : leastOutOfRange = .literalOutOfRange (Int64.minValue.toInt.natAbs.repr.toList) := by decide +kernel
  rw [Expr.text_neg (by decide), hcause]
  refine .single (by decide) (.behind (.zero 0 _) (.behind (.operator .sub 0) ?_))
  exact .numeral (by decide) (Lexeme.ends_cons _ rfl)

theorem Expr.sticks {e : Expr} (h : e.Uses IsIdentifier fun _ => True)
    (hleast : ¬ e.Uses IsIdentifier (Int64.minValue < ·)) (rest : List Char) :
    Sticks leastOutOfRange (e.text.toList ++ rest) := by
  induction e using Expr.induct generalizing rest with
  | num value =>
    rw [Word.eq_minValue hleast]
    exact Expr.sticks_least rest
  | var name => exact absurd h hleast
  | unary op e ih =>
    rw [Expr.text_unary]
    exact .behind (.sign op 0) (ih h hleast rest)
  | binary op a b iha ihb =>
    -- the lexer gets to the right operand only if it reads the left one through
    rw [Expr.text_binary]
    refine .single (by decide) ?_
    by_cases ha : a.Uses IsIdentifier (Int64.minValue < ·)
    · refine .behind (a.scans ha 0 (Lexeme.ends_cons _ rfl)) (.behind (.operator op 0) ?_)
      exact ihb h.2 (fun hb => hleast ⟨ha, hb⟩) _
    · exact iha h.1 ha _
  | call callee args ih =>
    rw [Expr.Uses, Expr.usesAll_iff] at h hleast
    rw [Expr.text_call]
    refine .behind (.identifier 0 h.1 (Lexeme.ends_cons _ rfl)) (.single (by decide) ?_)
    exact .separated Expr.text (Expr.tokens 0) (fun e _ he _ hrest => e.scans he 0 hrest)
      (fun e he hbad => ih e he (h.2 e he) hbad) (fun hargs => hleast ⟨h.1, hargs⟩) _

theorem Stmt.sticks_texts (level : Nat) {ss : List Stmt}
    (hstick : ∀ s ∈ ss, ¬ s.Uses IsIdentifier (Int64.minValue < ·) →
      ∀ rest, Sticks leastOutOfRange ((s.textAt level).toList ++ rest))
    (h : ¬ ∀ s ∈ ss, s.Uses IsIdentifier (Int64.minValue < ·)) (rest : List Char) :
    Sticks leastOutOfRange ((Stmt.textsAt level ss).toList ++ rest) := by
  induction ss with
  | nil => exact absurd (by simp) h
  | cons s ss ih =>
    rw [List.forall_mem_cons] at hstick h
    rw [Stmt.textsAt, String.toList_append, List.append_assoc]
    by_cases hs : s.Uses IsIdentifier (Int64.minValue < ·)
    · exact .behind (s.scans hs 0 level _) (ih hstick.2 fun hss => h ⟨hs, hss⟩)
    · exact hstick.1 hs _

theorem Stmt.sticks_condition {test : Expr} (h : test.Uses IsIdentifier fun _ => True)
    (hleast : ¬ test.Uses IsIdentifier (Int64.minValue < ·)) (rest : List Char) :
    Sticks leastOutOfRange ('i' :: 'f' :: ' ' :: '(' :: (test.text.toList ++ rest)) := by
  refine .behind (.word "if" 0 (by decide) (Lexeme.ends_cons _ rfl)) (.blank rfl ?_)
  exact .single (by decide) (test.sticks h hleast rest)

theorem Stmt.sticks {s : Stmt} (h : s.Uses IsIdentifier fun _ => True)
    (hleast : ¬ s.Uses IsIdentifier (Int64.minValue < ·)) (level : Nat) (rest : List Char) :
    Sticks leastOutOfRange ((s.textAt level).toList ++ rest) := by
  induction s using Stmt.induct generalizing level rest with
  | expr e =>
    rw [Stmt.text_expr]
    exact .indented level (e.sticks h hleast _)
  | set target e =>
    rw [Stmt.text_set]
    refine .indented level (.behind (.identifier 0 h.1 (Lexeme.ends_cons _ rfl)) (.behind (.assign 0) ?_))
    exact e.sticks h.2 (fun he => hleast ⟨h.1, he⟩) _
  | ret value =>
    cases value with
    | none => exact absurd trivial hleast
    | some e =>
      rw [Stmt.text_ret_some]
      refine .indented level (.behind (.word "return" 0 (by decide) (Lexeme.ends_cons _ rfl)) (.blank rfl ?_))
      exact e.sticks h hleast _
  | ifThen test body ih =>
    rw [Stmt.Uses, Stmt.usesAll_iff] at h hleast
    rw [Stmt.text_ifThen]
    refine .indented level ?_
    by_cases htest : test.Uses IsIdentifier (Int64.minValue < ·)
    · refine .behind (test.scans_condition htest 0 _) (.single (by decide) (.blank rfl ?_))
      exact Stmt.sticks_texts _ (fun s hs hbad => ih s hs (h.2 s hs) hbad _) (fun hbody => hleast ⟨htest, hbody⟩) _
    · exact Stmt.sticks_condition h.1 htest _
  | ifElse test yes no ihy ihn =>
    rw [Stmt.Uses, Stmt.usesAll_iff, Stmt.usesAll_iff] at h hleast
    rw [Stmt.text_ifElse]
    refine .indented level ?_
    by_cases htest : test.Uses IsIdentifier (Int64.minValue < ·)
    · refine .behind (test.scans_condition htest 0 _) ?_
      by_cases hyes : ∀ s ∈ yes, s.Uses IsIdentifier (Int64.minValue < ·)
      · refine .behind (Stmt.scans_block 0 level (fun s hs rest => s.scans (hyes s hs) _ _ rest) _) (.blank rfl ?_)
        refine .behind (.word "else" 0 (by decide) (Lexeme.ends_cons _ rfl)) (.blank rfl ?_)
        refine .single (by decide) (.blank rfl ?_)
        exact Stmt.sticks_texts _ (fun s hs hbad => ihn s hs (h.2.2 s hs) hbad _)
          (fun hno => hleast ⟨htest, hyes, hno⟩) _
      · refine .single (by decide) (.blank rfl ?_)
        exact Stmt.sticks_texts _ (fun s hs hbad => ihy s hs (h.2.1 s hs) hbad _) hyes _
    · exact Stmt.sticks_condition h.1 htest _

theorem Function.sticks {f : Function} (h : f.Uses IsIdentifier fun _ => True)
    (hleast : ¬ f.Uses IsIdentifier (Int64.minValue < ·)) (rest : List Char) :
    Sticks leastOutOfRange (f.text.toList ++ rest) := by
  obtain ⟨hname, hparams, hlocals, hbody⟩ := h
  rw [Function.text_eq]
  refine .behind (Function.scans_head hname hparams hlocals _) ?_
  exact Stmt.sticks_texts 1 (fun s hs hbad => s.sticks (hbody s hs) hbad 1)
    (fun hgood => hleast ⟨hname, hparams, hlocals, hgood⟩) _

theorem Program.sticks {p : Program} (h : p.Uses IsIdentifier fun _ => True)
    (hleast : ¬ p.Uses IsIdentifier (Int64.minValue < ·)) (rest : List Char) :
    Sticks leastOutOfRange (p.text.toList ++ rest) := by
  induction p with
  | nil => exact absurd (by simp [Program.Uses]) hleast
  | cons f p ih =>
    rw [Program.Uses, List.forall_mem_cons] at h hleast
    cases p with
    | nil =>
      have hf := f.sticks h.1 (fun hf => hleast ⟨hf, by simp⟩) rest
      simpa [Program.text] using hf
    | cons g p =>
      rw [Program.text_cons_cons]
      by_cases hf : f.Uses IsIdentifier (Int64.minValue < ·)
      · exact .behind (f.scans hf _) (.blank rfl (ih h.2 fun hp => hleast ⟨hf, hp⟩))
      · exact f.sticks h.1 hf _

/-! ## Programs -/

/-- The text of a program whose names are identifiers is tokenized as the tokens of the program if the least word
is not among its literals, and otherwise the numeral of that word is refused. -/
theorem Program.tokenize_text {p : Program} (h : p.Uses IsIdentifier fun _ => True) :
    (p.Uses IsIdentifier (Int64.minValue < ·) →
      ∃ ts, (Lexer.ofString p.text).tokenize.1 = .ok ts ∧ ts.map (·.kind) = p.tokens.map (·.1) ++ [.eof]) ∧
    (¬ p.Uses IsIdentifier (Int64.minValue < ·) →
      ∃ loc, (Lexer.ofString p.text).tokenize.1 =
        .error ⟨.literalOutOfRange "9223372036854775808".toList, loc⟩) := by
  constructor
  · intro hgood
    obtain ⟨l, hr⟩ := p.reads_text hgood
    exact tokenize_of_reads hr p.derives.ne_eof
  · intro hleast
    have hsticks := p.sticks h hleast []
    rw [List.append_nil] at hsticks
    exact hsticks.tokenize

/-- A literal next to a sign, in the test of a conditional. -/
def testing (value : Word) : Program :=
  [⟨"P", [], [], [.ifThen (.unary .negate (.num value)) [.ret none]], .proc⟩]

theorem testing_uses_iff {Q : Word → Prop} {value : Word} :
    (testing value).Uses IsIdentifier Q ↔ Q value := by
  have hP : IsIdentifier "P" := by decide
  simp [testing, Program.Uses, Function.Uses, Stmt.Uses, Expr.Uses, Stmt.UsesAll, hP]

theorem tokenize_text_of_testing :
    (∃ ts, (Lexer.ofString (testing (Int64.minValue + 1)).text).tokenize.1 = .ok ts ∧
      ts.map (·.kind) = [.kwProc, .ident "P", .lparen, .rparen, .lbrace, .kwIf, .lparen, .minus, .lparen, .number 0,
        .minus, .number Int64.maxValue, .rparen, .rparen, .lbrace, .kwReturn, .semicolon, .rbrace, .rbrace, .eof]) ∧
    ∃ loc, (Lexer.ofString (testing Int64.minValue).text).tokenize.1 =
      .error ⟨.literalOutOfRange "9223372036854775808".toList, loc⟩ := by
  have hgood := testing_uses_iff.2 (show Int64.minValue < Int64.minValue + 1 by decide)
  have hleast := mt testing_uses_iff.1 (show ¬ Int64.minValue < Int64.minValue by decide)
  refine ⟨?_, (Program.tokenize_text (testing_uses_iff.2 trivial)).2 hleast⟩
  exact (Program.tokenize_text (testing_uses_iff.2 trivial)).1 hgood

end Wordlang
