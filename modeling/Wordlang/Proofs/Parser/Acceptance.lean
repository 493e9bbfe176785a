import Wordlang.Proofs.Parser.Completeness

/-!
# The parser decides the grammar

Main statement: `Program.parse_eq_ok_iff`, a text is accepted with a tree exactly if the grammar derives the
tree from the tokens of the text, within the limits on nesting.
-/

namespace Wordlang

open Grammar

deriving instance DecidableEq for Lexer

namespace Lexer

/-- The tokens through the end of the text are what the lexer delivers first. -/
theorem tokenize_go_ok {delivered ts : List Token} {l l' : Lexer} (h : tokenize.go delivered l = (.ok ts, l')) :
    ∃ before last, ts = delivered.reverse ++ (before ++ [last]) ∧ last.kind = .eof ∧
      (∀ t ∈ before, t.kind ≠ .eof) ∧ l.stream = (before ++ [last]).map .ok ++ₛ l'.stream := by
  fun_induction tokenize.go delivered l with
  | case1 => cases h
  | case2 delivered l t l₁ hnext ht =>
    cases h
    exact ⟨[], t, by simp, ht, by simp, delivers_of_next hnext⟩
  | case3 delivered l t l₁ hnext ht _ ih =>
    obtain ⟨before, last, rfl, hlast, hbefore, hs⟩ := ih h
    refine ⟨t :: before, last, by simp, hlast, ?_, ?_⟩
    · rintro u (_ | ⟨_, hu⟩)
      · exact ht
      · exact hbefore u hu
    · rw [delivers_of_next hnext, hs]
      rfl

/-- The text ends only once. -/
theorem eq_of_same_end {xs ys : List Token} {s s' : Stream' (Except LexError Token)} {x y : Token}
    (hx : x.kind = .eof) (hxs : ∀ t ∈ xs, t.kind ≠ .eof) (hy : y.kind = .eof) (hys : ∀ t ∈ ys, t.kind ≠ .eof)
    (h : (xs ++ [x]).map .ok ++ₛ s = (ys ++ [y]).map .ok ++ₛ s') : xs ++ [x] = ys ++ [y] := by
  induction xs generalizing ys with
  | nil =>
    cases ys with
    | nil =>
      obtain ⟨hxy, -⟩ := Stream'.cons_injective2 h
      cases hxy
      rfl
    | cons z ys =>
      obtain ⟨hxz, -⟩ := Stream'.cons_injective2 h
      cases hxz
      exact absurd hx (hys x List.mem_cons_self)
  | cons z xs ih =>
    cases ys with
    | nil =>
      obtain ⟨hzy, -⟩ := Stream'.cons_injective2 h
      cases hzy
      exact absurd hy (hxs y List.mem_cons_self)
    | cons w ys =>
      obtain ⟨hzw, htail⟩ := Stream'.cons_injective2 h
      cases hzw
      have heq := ih (fun t ht => hxs t (List.mem_cons_of_mem z ht))
        (fun t ht => hys t (List.mem_cons_of_mem z ht)) htail
      rw [List.cons_append, List.cons_append, heq]

end Lexer

theorem Program.ofLexer_eq_ok_iff {l : Lexer} {p : Program} :
    Program.ofLexer l = .ok p ↔ ∃ l', ParseM.program l = .ok (p, l') := by
  unfold Program.ofLexer StateT.run'
  cases h : ParseM.program l with
  | error e =>
    constructor
    · intro h
      cases h
    · rintro ⟨l', h⟩
      cases h
  | ok r =>
    obtain ⟨q, l₁⟩ := r
    constructor
    · intro h
      cases h
      exact ⟨l₁, rfl⟩
    · rintro ⟨l', h⟩
      cases h
      rfl

/-- A text that consists of the tokens `ts` is accepted with the tree `p` exactly if the grammar derives `p` from
them, no token lies too deep and no complete expression of `p` is too high. -/
theorem Program.parse_eq_ok_iff {source : String} {ts : List Token} {l : Lexer}
    (h : (Lexer.ofString source).tokenize = (.ok ts, l)) (p : Program) :
    Program.parse source = .ok p ↔
      ∃ us, ts.map (·.kind) = us.map (·.1) ++ [.eof] ∧ Derives us p ∧ Shallow us ∧ Low p.complete := by
  obtain ⟨before, last, hts, hlast, hbefore, hs⟩ := Lexer.tokenize_go_ok h
  rw [List.reverse_nil, List.nil_append] at hts
  subst hts
  unfold Program.parse
  rw [Program.ofLexer_eq_ok_iff]
  constructor
  · rintro ⟨l', hp⟩
    obtain ⟨us, ⟨ts, hk, hs'⟩, hder, hshallow, hlow⟩ := ParseM.program_sound hp
    refine ⟨us, ?_, hder, hshallow, hlow⟩
    rw [List.map_append] at hk
    obtain ⟨before', last', rfl, hb, hl⟩ := List.map_eq_append_iff.1 hk
    obtain ⟨t, rest, rfl, ht, hrest⟩ := List.map_eq_cons_iff.1 hl
    rw [List.map_nil, List.map_eq_nil_iff] at hrest
    subst hrest
    have hne : ∀ t ∈ before', t.kind ≠ .eof := by
      intro t ht hk
      have hmem : t.kind ∈ us.map (·.1) := hb ▸ List.mem_map_of_mem ht
      obtain ⟨u, hu, hut⟩ := List.mem_map.1 hmem
      exact hder.ne_eof u hu (hut.trans hk)
    rw [Lexer.eq_of_same_end hlast hbefore ht hne (hs.symm.trans hs'), List.map_append, hb]
    simpa using ht
  · rintro ⟨us, hk, hder, hshallow, hlow⟩
    exact ParseM.program_run hder hshallow hlow ⟨before ++ [last], by simpa using hk, hs⟩

/-- Operators of all levels, the subtractions from left to right. -/
def mixedSource : String := "proc P() \x7b a = b - c - -d * F(2) < e && f || g; \x7d"

def mixedTokens : List Token :=
  [⟨.kwProc, ⟨1, 1⟩⟩, ⟨.ident "P", ⟨1, 6⟩⟩, ⟨.lparen, ⟨1, 7⟩⟩, ⟨.rparen, ⟨1, 8⟩⟩, ⟨.lbrace, ⟨1, 10⟩⟩,
    ⟨.ident "a", ⟨1, 12⟩⟩, ⟨.assign, ⟨1, 14⟩⟩, ⟨.ident "b", ⟨1, 16⟩⟩, ⟨.minus, ⟨1, 18⟩⟩, ⟨.ident "c", ⟨1, 20⟩⟩,
    ⟨.minus, ⟨1, 22⟩⟩, ⟨.minus, ⟨1, 24⟩⟩, ⟨.ident "d", ⟨1, 25⟩⟩, ⟨.star, ⟨1, 27⟩⟩, ⟨.ident "F", ⟨1, 29⟩⟩,
    ⟨.lparen, ⟨1, 30⟩⟩, ⟨.number 2, ⟨1, 31⟩⟩, ⟨.rparen, ⟨1, 32⟩⟩, ⟨.less, ⟨1, 34⟩⟩, ⟨.ident "e", ⟨1, 36⟩⟩,
    ⟨.andAnd, ⟨1, 38⟩⟩, ⟨.ident "f", ⟨1, 41⟩⟩, ⟨.orOr, ⟨1, 43⟩⟩, ⟨.ident "g", ⟨1, 46⟩⟩, ⟨.semicolon, ⟨1, 47⟩⟩,
    ⟨.rbrace, ⟨1, 49⟩⟩, ⟨.eof, ⟨1, 50⟩⟩]

def mixedDifference : Expr :=
  .binary .sub (.binary .sub (.var "b") (.var "c"))
    (.binary .mul (.unary .negate (.var "d")) (.call "F" [.num 2]))

def mixedExpr : Expr :=
  .binary .or (.binary .and (.binary .less mixedDifference (.var "e")) (.var "f")) (.var "g")

def mixed : Program := [⟨"P", [], [], [.set "a" mixedExpr], .proc⟩]

theorem parse_mixedSource :
    (Lexer.ofString mixedSource).tokenize = (.ok mixedTokens, ⟨[], ⟨1, 50⟩, []⟩) ∧
    (∃ us, mixedTokens.map (·.kind) = us.map (·.1) ++ [.eof] ∧ Derives us mixed ∧ Shallow us ∧
      Low mixed.complete) ∧
    Program.parse mixedSource = .ok mixed := by
  have htokens : (Lexer.ofString mixedSource).tokenize = (.ok mixedTokens, ⟨[], ⟨1, 50⟩, []⟩) := by decide +kernel
  have name (x : String) {level : Nat} (h : level ≤ 5) : Expression level 0 [(.ident x, 0)] (.var x) :=
    (Expression.name 0 x).looser h (Nat.le_refl 5)
  have hproduct : Expression 4 0 [(.minus, 0), (.ident "d", 1), (.star, 0), (.ident "F", 0), (.lparen, 1),
      (.number 2, 1), (.rparen, 1)] (.binary .mul (.unary .negate (.var "d")) (.call "F" [.num 2])) := by
    have hargs : ∀ arg ∈ [([(Token.Kind.number 2, 1)], Expr.num 2)], Expression 0 1 arg.1 arg.2 :=
      List.forall_mem_singleton.2 ((Expression.number 1 2).looser (Nat.zero_le 5) (Nat.le_refl 5))
    have hsign : Expression 4 0 [(.minus, 0), (.ident "d", 1)] (.unary .negate (.var "d")) :=
      .tighter (by decide) (.sign .negate (.name 1 "d"))
    exact .operation .mul (by decide) hsign (.call "F" _ hargs)
  have hdifference := Expression.operation .sub (by decide)
    (.operation .sub (by decide) (name "b" (by decide)) (name "c" (by decide))) hproduct
  have hless := Expression.operation .less (by decide) (hdifference.tighter (by decide)) (name "e" (by decide))
  have hand := Expression.operation .and (by decide) (hless.tighter (by decide)) (name "f" (by decide))
  have hor := Expression.operation .or (by decide) (hand.tighter (by decide)) (name "g" (by decide))
  have hbody : Statement 0 _ (.set "a" mixedExpr) := .set "a" hor
  have hfunction := Declaration.intro "P" [] [] [(_, _)] .proc .missing (List.forall_mem_singleton.2 hbody)
  have hderives : ∃ us, mixedTokens.map (·.kind) = us.map (·.1) ++ [.eof] ∧ Derives us mixed ∧ Shallow us ∧
      Low mixed.complete :=
    ⟨_, rfl, .intro [(_, _)] (List.forall_mem_singleton.2 hfunction), by decide, by decide⟩
  exact ⟨htokens, hderives, (Program.parse_eq_ok_iff htokens mixed).2 hderives⟩

end Wordlang
