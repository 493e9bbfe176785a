import Wordlang.Proofs.Printer.Limits

/-!
# Reading back the text of a program

A program is read back from its text exactly if the text keeps to the limit on nesting, up to the signs of its
literals. Names that are no identifiers, and the least word as a literal, are left out: the first have no text that is
read as a name, the second is written as a difference with a number that is no word.

The names in a parsed program are identifiers, its literals have no sign and its blocks keep to the limit on nesting.
So its text is read back as the same program, unless an expression goes beyond the limit.

This can happen: the parser bounds the height of an expression, and a call without arguments is as high as a name,
but its text has parentheses. Main statements: `Program.parse_text_of_parsed`, `Program.parse_text_of_writable`.
-/

namespace Wordlang

open Grammar Lexer

/-! ## Parsed programs -/

section

variable {P : String → Prop} {Q Q' : Word → Prop}

theorem Expr.Uses.mono (hQ : ∀ value, Q value → Q' value) {e : Expr} (h : e.Uses P Q) : e.Uses P Q' := by
  induction e using Expr.induct with
  | num value => exact hQ value h
  | var => exact h
  | unary op e ih => exact ih h
  | binary op a b iha ihb => exact ⟨iha h.1, ihb h.2⟩
  | call callee args ih =>
    rw [Expr.Uses, Expr.usesAll_iff] at h ⊢
    exact ⟨h.1, fun e he => ih e he (h.2 e he)⟩

theorem Stmt.Uses.mono (hQ : ∀ value, Q value → Q' value) {s : Stmt} (h : s.Uses P Q) : s.Uses P Q' := by
  induction s using Stmt.induct with
  | expr e => exact Expr.Uses.mono hQ h
  | set target e => exact ⟨h.1, Expr.Uses.mono hQ h.2⟩
  | ret value =>
    cases value with
    | none => trivial
    | some e => exact Expr.Uses.mono hQ h
  | ifThen test body ih =>
    rw [Stmt.Uses, Stmt.usesAll_iff] at h ⊢
    exact ⟨h.1.mono hQ, fun s hs => ih s hs (h.2 s hs)⟩
  | ifElse test yes no ihy ihn =>
    rw [Stmt.Uses, Stmt.usesAll_iff, Stmt.usesAll_iff] at h ⊢
    exact ⟨h.1.mono hQ, fun s hs => ihy s hs (h.2.1 s hs), fun s hs => ihn s hs (h.2.2 s hs)⟩

theorem Program.Uses.mono (hQ : ∀ value, Q value → Q' value) {p : Program} (h : p.Uses P Q) : p.Uses P Q' := by
  intro f hf
  obtain ⟨hname, hparams, hlocals, hbody⟩ := h f hf
  exact ⟨hname, hparams, hlocals, fun s hs => (hbody s hs).mono hQ⟩

end

/-- All tokens are such as are read from a text. -/
def Valid (us : List Placed) : Prop := ∀ u ∈ us, u.1.Valid

namespace Valid

variable {us vs : List Placed} {u : Placed}

theorem append_iff : Valid (us ++ vs) ↔ Valid us ∧ Valid vs := List.forall_mem_append

theorem cons_iff : Valid (u :: us) ↔ u.1.Valid ∧ Valid us := List.forall_mem_cons

theorem flatten {parts : List (List Placed)} (h : Valid parts.flatten) : ∀ us ∈ parts, Valid us :=
  fun us hus u hu => h u (List.mem_flatten.2 ⟨us, hus, hu⟩)

theorem separated {depth : Nat} {parts : List (List Placed)} (h : Valid (separated depth parts)) :
    ∀ us ∈ parts, Valid us := fun _ hus u hu => h u (mem_separated_of_mem hus hu)

theorem names {xs : List String} (h : Valid (names xs)) : ∀ x ∈ xs, IsIdentifier x := by
  intro x hx
  exact h.separated _ (List.mem_map_of_mem hx) (.ident x, 0) List.mem_cons_self

end Valid

namespace Grammar

theorem Expression.uses {level depth : Nat} {us : List Placed} {e : Expr} (h : Expression level depth us e) :
    Valid us → e.Uses IsIdentifier (0 ≤ ·) := by
  induction h with
  | number depth value => exact fun hv => hv _ List.mem_cons_self
  | name depth x => exact fun hv => hv _ List.mem_cons_self
  | call callee args _ ih =>
    intro hv
    rw [Expr.Uses, Expr.usesAll_iff]
    simp only [Valid.cons_iff, Valid.append_iff] at hv
    obtain ⟨hcallee, -, hargs, -⟩ := hv
    refine ⟨hcallee, fun e he => ?_⟩
    obtain ⟨arg, harg, rfl⟩ := List.mem_map.1 he
    exact ih arg harg (hargs.separated _ (List.mem_map_of_mem harg))
  | group _ ih => exact fun hv => ih (Valid.append_iff.1 (Valid.cons_iff.1 hv).2).1
  | sign op _ ih => exact fun hv => ih (Valid.cons_iff.1 hv).2
  | tighter _ _ ih => exact ih
  | operation op _ _ _ ihl ihr =>
    intro hv
    rw [Valid.append_iff, Valid.cons_iff] at hv
    exact ⟨ihl hv.1, ihr hv.2.2⟩

theorem Statement.uses {depth : Nat} {us : List Placed} {s : Stmt} (h : Statement depth us s) :
    Valid us → s.Uses IsIdentifier (0 ≤ ·) := by
  induction h with
  | expr h => exact fun hv => h.uses (Valid.append_iff.1 hv).1
  | set target h =>
    intro hv
    simp only [Valid.cons_iff, Valid.append_iff] at hv
    exact ⟨hv.1, h.uses hv.2.2.1⟩
  | leave => exact fun _ => trivial
  | leaveWith h => exact fun hv => h.uses (Valid.append_iff.1 (Valid.cons_iff.1 hv).2).1
  | ifThen body h _ ih =>
    intro hv
    simp only [condition, braced, Valid.cons_iff, Valid.append_iff] at hv
    obtain ⟨⟨-, -, htest, -⟩, -, hbody, -⟩ := hv
    rw [Stmt.Uses, Stmt.usesAll_iff]
    refine ⟨h.uses htest, fun s hs => ?_⟩
    obtain ⟨part, hpart, rfl⟩ := List.mem_map.1 hs
    exact ih part hpart (hbody.flatten _ (List.mem_map_of_mem hpart))
  | ifElse yes no h _ _ ihy ihn =>
    intro hv
    simp only [condition, braced, Valid.cons_iff, Valid.append_iff] at hv
    obtain ⟨⟨⟨-, -, htest, -⟩, -, hyes, -⟩, -, -, hno, -⟩ := hv
    rw [Stmt.Uses, Stmt.usesAll_iff, Stmt.usesAll_iff]
    refine ⟨h.uses htest, fun s hs => ?_, fun s hs => ?_⟩
    · obtain ⟨part, hpart, rfl⟩ := List.mem_map.1 hs
      exact ihy part hpart (hyes.flatten _ (List.mem_map_of_mem hpart))
    · obtain ⟨part, hpart, rfl⟩ := List.mem_map.1 hs
      exact ihn part hpart (hno.flatten _ (List.mem_map_of_mem hpart))

/-- Blocks lie no deeper than their braces. -/
theorem Statement.blocks_le {depth : Nat} {us : List Placed} {s : Stmt} (h : Statement depth us s) :
    Shallow us → ∀ d ∈ s.blocks depth, d ≤ maxNesting := by
  have hblock : ∀ {depth : Nat} {body : List (List Placed × Stmt)},
      (∀ part ∈ body, Shallow part.1 → ∀ d ∈ part.2.blocks (depth + 1), d ≤ maxNesting) →
      Shallow (braced depth (body.map (·.1))) →
      ∀ d ∈ (depth + 1) :: Stmt.blocksOf (depth + 1) (body.map (·.2)), d ≤ maxNesting := by
    intro depth body ih hs d hd
    obtain ⟨hd', hs⟩ := Shallow.cons_iff.1 hs
    rcases List.mem_cons.1 hd with rfl | hd
    · exact hd'
    · obtain ⟨s, hmem, hd⟩ := Stmt.mem_blocksOf.1 hd
      obtain ⟨part, hpart, rfl⟩ := List.mem_map.1 hmem
      refine ih part hpart ?_ d hd
      exact Shallow.flatten_iff.1 (Shallow.append_iff.1 hs).1 _ (List.mem_map_of_mem hpart)
  induction h with
  | expr => simp [Stmt.blocks]
  | set => simp [Stmt.blocks]
  | leave => simp [Stmt.blocks]
  | leaveWith => simp [Stmt.blocks]
  | ifThen body _ _ ih =>
    intro hs
    exact hblock ih (Shallow.append_iff.1 hs).2
  | ifElse yes no _ _ _ ihy ihn =>
    intro hs d hd
    obtain ⟨hs, hno⟩ := Shallow.append_iff.1 hs
    obtain ⟨-, hyes⟩ := Shallow.append_iff.1 hs
    rw [Stmt.blocks, ← List.cons_append] at hd
    rcases List.mem_append.1 hd with hd | hd
    · exact hblock ihy hyes d hd
    · exact hblock ihn (Shallow.cons_iff.1 hno).2 d hd

theorem Locals.uses {ls : List Placed} {xs : List String} (h : Locals ls xs) (hv : Valid ls) :
    ∀ x ∈ xs, IsIdentifier x := by
  cases h with
  | missing => simp
  | declared => exact Valid.names (Valid.append_iff.1 (Valid.cons_iff.1 hv).2).1

theorem Declaration.uses {us : List Placed} {f : Function} (h : Declaration us f) (hv : Valid us) :
    f.Uses IsIdentifier (0 ≤ ·) := by
  cases h with
  | intro name params locals body kind hls hbody =>
    simp only [Valid.cons_iff, Valid.append_iff] at hv
    obtain ⟨-, hname, -, hparams, -, -, hlocals, hstmts, -⟩ := hv
    refine ⟨hname, hparams.names, hls.uses hlocals, fun s hs => ?_⟩
    obtain ⟨part, hpart, rfl⟩ := List.mem_map.1 hs
    exact (hbody part hpart).uses (hstmts.flatten _ (List.mem_map_of_mem hpart))

theorem Declaration.blocks_le {us : List Placed} {f : Function} (h : Declaration us f) (hs : Shallow us) :
    ∀ d ∈ Stmt.blocksOf 0 f.body, d ≤ maxNesting := by
  cases h with
  | intro name params locals body kind hls hbody =>
    simp only [Shallow.cons_iff, Shallow.append_iff] at hs
    obtain ⟨-, -, -, -, -, -, -, hs, -⟩ := hs
    intro d hd
    obtain ⟨s, hmem, hd⟩ := Stmt.mem_blocksOf.1 hd
    obtain ⟨part, hpart, rfl⟩ := List.mem_map.1 hmem
    exact (hbody part hpart).blocks_le (Shallow.flatten_iff.1 hs _ (List.mem_map_of_mem hpart)) d hd

theorem Derives.uses {us : List Placed} {p : Program} (h : Derives us p) (hv : Valid us) :
    p.Uses IsIdentifier (0 ≤ ·) := by
  cases h with
  | intro parts hparts =>
    intro f hf
    obtain ⟨part, hpart, rfl⟩ := List.mem_map.1 hf
    exact (hparts part hpart).uses (hv.flatten _ (List.mem_map_of_mem hpart))

theorem Derives.blocks_le {us : List Placed} {p : Program} (h : Derives us p) (hs : Shallow us) :
    ∀ d ∈ p.blocks, d ≤ maxNesting := by
  cases h with
  | intro parts hparts =>
    intro d hd
    obtain ⟨f, hf, hd⟩ := List.mem_flatMap.1 hd
    obtain ⟨part, hpart, rfl⟩ := List.mem_map.1 hf
    exact (hparts part hpart).blocks_le (Shallow.flatten_iff.1 hs _ (List.mem_map_of_mem hpart)) d hd

end Grammar

/-- What is true of every program that the parser gives. -/
theorem Program.of_parse {source : String} {p : Program} (h : Program.parse source = .ok p) :
    p.Uses IsIdentifier (0 ≤ ·) ∧ ∀ d ∈ p.blocks, d ≤ maxNesting := by
  obtain ⟨l, hrun⟩ := Program.ofLexer_eq_ok_iff.1 h
  obtain ⟨us, hr, hder, hshallow, -⟩ := ParseM.program_sound hrun
  have hvalid : Valid us := (Valid.append_iff.1 (hr.valid rfl)).1
  exact ⟨hder.uses hvalid, hder.blocks_le hshallow⟩

/-! ## The text of a parsed program -/

/-- The text of a parsed program is read back as the same program exactly if no complete expression goes beyond the
limit in its text. Otherwise the text is rejected, because its constructs nest too deep. -/
theorem Program.parse_text_of_parsed {source : String} {p : Program} (h : Program.parse source = .ok p) :
    (Program.parse p.text = .ok p ↔ ∀ x ∈ p.complete, x.1 + x.2.nesting ≤ maxNesting) ∧
      ((∃ x ∈ p.complete, maxNesting < x.1 + x.2.nesting) →
        ∃ loc, Program.parse p.text = .error ⟨.codeTooDeep, loc⟩) := by
  obtain ⟨huses, hblocks⟩ := Program.of_parse h
  have hwritable : p.Uses IsIdentifier (Int64.minValue < ·) :=
    huses.mono fun value hvalue => Std.lt_of_lt_of_le (by decide) hvalue
  have hfail : (∃ x ∈ p.complete, maxNesting < x.1 + x.2.nesting) →
      ∃ loc, Program.parse p.text = .error ⟨.codeTooDeep, loc⟩ := by
    rintro ⟨x, hx, hlt⟩
    exact Program.parse_text_error hwritable fun hfits => Nat.not_lt_of_le (hfits.1 x hx) hlt
  refine ⟨⟨fun hok => ?_, fun hfits => ?_⟩, hfail⟩
  · intro x hx
    by_contra hlt
    obtain ⟨loc, herror⟩ := hfail ⟨x, hx, Nat.lt_of_not_le hlt⟩
    rw [herror] at hok
    cases hok
  · rw [Program.parse_text hwritable ⟨hfits, hblocks⟩, Program.unsigned_eq huses]

/-! ## Sums at the limit

A call without arguments, with one more addition than its text has room for. -/

/-- The sum `F() + 1 + … + 1`, with `n` additions. -/
def addition : Nat → Expr
  | 0 => .call "F" []
  | n + 1 => .binary .add (addition n) (.num 1)

/-- The sum, without parentheses around its parts. -/
def additionText : Nat → String
  | 0 => "F()"
  | n + 1 => additionText n ++ " + 1"

def additionTokens : Nat → List Placed
  | 0 => [(.ident "F", 0), (.lparen, 1), (.rparen, 1)]
  | n + 1 => additionTokens n ++ [(.plus, 0), (.number 1, 0)]

def additionSource (n : Nat) : String := "proc P() \x7b " ++ additionText n ++ "; \x7d"

def additionProgram (n : Nat) : Program := [⟨"P", [], [], [.expr (addition n)], .proc⟩]

theorem addition_expression (n : Nat) : Expression 3 0 (additionTokens n) (addition n) := by
  induction n with
  | zero => exact (Expression.call "F" [] (by simp)).looser (by decide) (by decide)
  | succ n ih => exact .binary .add ih ((Expression.number 0 1).looser (by decide) (by decide))

theorem addition_height (n : Nat) : (addition n).height = n + 1 := by
  induction n with
  | zero => rfl
  | succ n ih =>
    simp only [addition, Expr.height, ih]
    omega

theorem addition_nesting (n : Nat) : (addition n).nesting = n + 1 := by
  induction n with
  | zero => rfl
  | succ n ih =>
    have hone : (Expr.num 1).nesting = 0 := rfl
    rw [addition, Expr.nesting, ih, hone]
    omega

theorem shallow_additionTokens (n : Nat) : Shallow (additionTokens n) := by
  induction n with
  | zero => decide
  | succ n ih => exact Shallow.append_iff.2 ⟨ih, by decide⟩

theorem additionText_scans (n : Nat) {rest : List Char} (hrest : Lexeme.Ends rest) :
    Scans ((additionText n).toList ++ rest) (additionTokens n) rest := by
  induction n generalizing rest with
  | zero =>
    refine .cons (.word "F" 0 (by decide) (Lexeme.ends_cons _ rfl)) ?_
    exact .cons (.single 1 (by decide)) (.single 1 (by decide))
  | succ n ih =>
    have htext : (additionText (n + 1)).toList ++ rest =
        (additionText n).toList ++ ' ' :: '+' :: ' ' :: ((1 : Nat).repr.toList ++ rest) := by
      simp [additionText]
      rfl
    rw [htext]
    exact (ih (Lexeme.ends_cons _ rfl)).append (.cons (.operator .add 0) (.numeral 0 (by decide) hrest))

def additionSourceTokens (n : Nat) : List Placed :=
  (.kwProc, 0) :: (.ident "P", 0) :: (.lparen, 0) :: (.rparen, 0) :: (.lbrace, 0) ::
    (additionTokens n ++ [(.semicolon, 0), (.rbrace, 0)])

theorem additionProgram_derives (n : Nat) : Derives (additionSourceTokens n) (additionProgram n) := by
  have hbody : ∀ part ∈ [(additionTokens n ++ [(.semicolon, 0)], Stmt.expr (addition n))],
      Statement 0 part.1 part.2 :=
    List.forall_mem_singleton.2 (.expr ((addition_expression n).looser (Nat.zero_le _) (by decide)))
  have hdecl := Declaration.intro "P" [] [] _ .proc .missing hbody
  have hder := Derives.intro [(_, _)] (List.forall_mem_singleton.2 hdecl)
  simpa [additionProgram, additionSourceTokens, names, separated, List.intercalate, FunctionKind.token] using hder

theorem additionSource_scans (n : Nat) : Scans (additionSource n).toList (additionSourceTokens n) [] := by
  have htext : (additionSource n).toList = "proc".toList ++ ' ' :: ("P".toList ++ '(' :: ')' :: ' ' :: '{' :: ' ' ::
      ((additionText n).toList ++ ';' :: ' ' :: '}' :: [])) := by simp [additionSource]
  rw [htext]
  refine .cons (.word "proc" 0 (by decide) (Lexeme.ends_cons _ rfl)) (.blank rfl ?_)
  refine .cons (.word "P" 0 (by decide) (Lexeme.ends_cons _ rfl)) ?_
  refine .cons (.single 0 (by decide)) (.cons (.single 0 (by decide)) ?_)
  refine .blank rfl (.cons (.single 0 (by decide)) (.blank rfl ?_))
  refine .append (additionText_scans n (Lexeme.ends_cons _ rfl)) ?_
  refine .cons (.single 0 (by decide)) (.blank rfl ?_)
  exact .single 0 (by decide)

theorem parse_additionSource {n : Nat} (h : n ≤ maxNesting) :
    Program.parse (additionSource n) = .ok (additionProgram n) := by
  have hshallow : Shallow (additionSourceTokens n) := by
    simp only [additionSourceTokens, Shallow.cons_iff, Shallow.append_iff]
    exact ⟨by decide, by decide, by decide, by decide, by decide, shallow_additionTokens n, by decide⟩
  have hlow : Low (additionProgram n).complete := by
    refine Low.cons_iff.2 ⟨?_, Low.nil⟩
    rw [addition_height]
    omega
  obtain ⟨loc, hr⟩ := (additionSource_scans n).append (.eof 0) .start
  exact Program.ofLexer_eq_ok_iff.2 (ParseM.program_run (additionProgram_derives n) hshallow hlow hr)

theorem parse_text_of_additionSource :
    Program.parse (additionSource 128) = .ok (additionProgram 128) ∧
      ∃ loc, Program.parse (additionProgram 128).text = .error ⟨.codeTooDeep, loc⟩ := by
  have h : Program.parse (additionSource 128) = .ok (additionProgram 128) := parse_additionSource (Nat.le_refl _)
  refine ⟨h, (Program.parse_text_of_parsed h).2 ⟨(0, addition 128), List.mem_cons_self, ?_⟩⟩
  rw [addition_nesting]
  decide

/-! ## The text of any program -/

/-- The text of a program is read back, with a difference for each negative literal, if it keeps to the limit, and
otherwise the parser says that it is nested too deeply. The parts of an expression nest less deeply than the whole,
so the limit is about complete expressions. -/
theorem Program.parse_text_of_writable {p : Program} (h : p.Uses IsIdentifier (Int64.minValue < ·)) :
    (p.Fits → Program.parse p.text = .ok p.unsigned) ∧
    (¬ p.Fits → ∃ loc, Program.parse p.text = .error ⟨.codeTooDeep, loc⟩) ∧
    (p.Uses IsIdentifier (0 ≤ ·) → p.unsigned = p) :=
  ⟨Program.parse_text h, Program.parse_text_error h, Program.unsigned_eq⟩

theorem additionProgram_uses (n : Nat) : (additionProgram n).Uses IsIdentifier (0 ≤ ·) := by
  have hsum : (addition n).Uses IsIdentifier (0 ≤ ·) := by
    induction n with
    | zero => exact ⟨by decide, trivial⟩
    | succ n ih => exact ⟨ih, (by decide : (0 : Word) ≤ 1)⟩
  exact List.forall_mem_singleton.2
    ⟨(by decide : IsIdentifier "P"), by simp, by simp, List.forall_mem_singleton.2 hsum⟩

theorem additionProgram_fits_iff {n : Nat} : (additionProgram n).Fits ↔ n < maxNesting := by
  have hcomplete : (∀ x ∈ (additionProgram n).complete, x.1 + x.2.nesting ≤ maxNesting) ↔
      0 + (addition n).nesting ≤ maxNesting := List.forall_mem_singleton
  have hblocks : ∀ d ∈ (additionProgram n).blocks, d ≤ maxNesting := List.forall_mem_nil _
  rw [Program.Fits, and_iff_left hblocks, hcomplete, addition_nesting]
  omega

/-- A negative literal in a block. -/
def signedProgram : Program := [⟨"P", ["x"], [], [.ifElse (.var "x") [] [.set "x" (.num (-5))]], .proc⟩]

/-- A negative literal comes back as a difference, and the sum that fills the limit is the last that comes back. -/
theorem parse_text_at_limit :
    Program.parse signedProgram.text =
      .ok [⟨"P", ["x"], [], [.ifElse (.var "x") [] [.set "x" (.binary .sub (.num 0) (.num 5))]], .proc⟩] ∧
    Program.parse (additionProgram 127).text = .ok (additionProgram 127) ∧
    ∃ loc, Program.parse (additionProgram 128).text = .error ⟨.codeTooDeep, loc⟩ := by
  have hadd : ∀ n, (additionProgram n).Uses IsIdentifier (Int64.minValue < ·) := fun n =>
    (additionProgram_uses n).mono fun value hvalue => Std.lt_of_lt_of_le (by decide) hvalue
  refine ⟨?_, ?_, ?_⟩
  · have huses : signedProgram.Uses IsIdentifier (Int64.minValue < ·) := by
      refine List.forall_mem_singleton.2 ⟨by decide, by decide, by simp, List.forall_mem_singleton.2 ?_⟩
      exact ⟨(by decide : IsIdentifier "x"), trivial, ⟨by decide, (by decide : Int64.minValue < -5)⟩, trivial⟩
    exact (Program.parse_text_of_writable huses).1 ⟨by decide, by decide⟩
  · obtain ⟨hok, -, hsame⟩ := Program.parse_text_of_writable (hadd 127)
    rw [hok (additionProgram_fits_iff.2 (by decide)), hsame (additionProgram_uses 127)]
  · exact (Program.parse_text_of_writable (hadd 128)).2.1 fun h => absurd (additionProgram_fits_iff.1 h) (by decide)

end Wordlang
