import Wordlang.Proofs.Parser.Completeness

/-!
# Optional parsers take all or nothing

A parser of an optional thing that finds none leaves all that the lexer has still to deliver as it was. If it finds
one, it has taken at least one token, and none of those that it has taken is the end of the text. So there is less ahead
with each item of a repetition, and the bound on the number of items is never the reason why one ends.

Main statements: the parsers are `AllOrNothing`, and `many_eq`.
-/

namespace Wordlang

open Grammar Lexer

/-! ## What lies ahead -/

namespace Lexer

theorem scan_error_lt {loc : Location} {rest : List Char} {e : LexError} {l : Lexer}
    (h : scan loc rest = (.error e, l)) : l.size < rest.length := by
  have hle := skipTrivia_length_le false loc rest
  unfold scan at h
  split at h
  · cases h
  · rename_i c cs hskip
    rw [hskip] at hle
    have hlt := Lexeme.read_rest_length_lt c cs
    dsimp only at h
    split at h
    · cases h
    · cases h
      simp only [size, List.length_nil] at *
      omega

theorem next_error_lt {l l' : Lexer} {e : LexError} (h : l.next = (.error e, l')) : l'.size < l.size := by
  unfold next at h
  split at h
  · cases h
  · have := scan_error_lt h
    simp only [size] at *
    omega

/-- What the lexer delivers through the first end of the text. -/
def ahead (l : Lexer) : List (Except LexError Token) :=
  match h : l.next with
  | (.error e, l') =>
    have := next_error_lt h
    .error e :: ahead l'
  | (.ok t, l') =>
    if ht : t.kind = .eof then [.ok t]
    else
      have := next_size_lt h ht
      .ok t :: ahead l'
termination_by l.size

variable {l l' : Lexer} {t : Token} {e : LexError}

theorem ahead_of_error (h : l.next = (.error e, l')) : l.ahead = .error e :: l'.ahead := by
  rw [ahead]
  split
  · rename_i hn
    cases h.symm.trans hn
    rfl
  · rename_i hn
    cases h.symm.trans hn

theorem ahead_of_eof (h : l.next = (.ok t, l')) (ht : t.kind = .eof) : l.ahead = [.ok t] := by
  rw [ahead]
  split
  · rename_i hn
    cases h.symm.trans hn
  · rename_i hn
    cases h.symm.trans hn
    rw [dif_pos ht]

theorem ahead_of_token (h : l.next = (.ok t, l')) (ht : t.kind ≠ .eof) : l.ahead = .ok t :: l'.ahead := by
  rw [ahead]
  split
  · rename_i hn
    cases h.symm.trans hn
  · rename_i hn
    cases h.symm.trans hn
    rw [dif_neg ht]

/-- It takes no longer than the size of the lexer lets it. -/
theorem length_ahead_le (l : Lexer) : l.ahead.length ≤ l.size + 1 := by
  induction hn : l.size using Nat.strong_induction_on generalizing l with
  | _ n ih =>
    subst hn
    cases hnext : l.next with
    | mk r l' =>
      cases r with
      | error e =>
        have hlt := next_error_lt hnext
        have := ih _ hlt l' rfl
        rw [ahead_of_error hnext, List.length_cons]
        omega
      | ok t =>
        by_cases ht : t.kind = .eof
        · rw [ahead_of_eof hnext ht, List.length_singleton]
          omega
        · have hlt := next_size_lt hnext ht
          have := ih _ hlt l' rfl
          rw [ahead_of_token hnext ht, List.length_cons]
          omega

theorem ahead_ne_nil (l : Lexer) : l.ahead ≠ [] := by
  rw [ahead]
  split
  · simp
  · split <;> simp

theorem ahead_congr (h : l.stream = l'.stream) : l.ahead = l'.ahead := by
  induction hn : l.size using Nat.strong_induction_on generalizing l l' with
  | _ n ih =>
    subst hn
    rw [stream_eq l, stream_eq l'] at h
    obtain ⟨hhead, htail⟩ := Stream'.cons_injective2 h
    cases hnext : l.next with
    | mk r l₁ =>
      cases hnext' : l'.next with
      | mk r' l₁' =>
        rw [hnext, hnext'] at hhead htail
        cases hhead
        cases r with
        | error e =>
          rw [ahead_of_error hnext, ahead_of_error hnext', ih _ (next_error_lt hnext) htail rfl]
        | ok t =>
          by_cases ht : t.kind = .eof
          · rw [ahead_of_eof hnext ht, ahead_of_eof hnext' ht]
          · rw [ahead_of_token hnext ht, ahead_of_token hnext' ht, ih _ (next_size_lt hnext ht) htail rfl]

/-- The lexer delivers the given tokens, none of which is the end of the text, and then what `l'` delivers. -/
def Passes (l : Lexer) (ts : List Token) (l' : Lexer) : Prop :=
  (∀ t ∈ ts, t.kind ≠ .eof) ∧ l.stream = ts.map .ok ++ₛ l'.stream

theorem Passes.ahead {ts : List Token} (h : l.Passes ts l') : l.ahead = ts.map .ok ++ l'.ahead := by
  obtain ⟨hts, hs⟩ := h
  induction ts generalizing l with
  | nil => exact ahead_congr hs
  | cons t ts ih =>
    rw [List.map_cons, Stream'.cons_append_stream, stream_eq] at hs
    obtain ⟨hhead, htail⟩ := Stream'.cons_injective2 hs
    obtain ⟨ht, hts⟩ := List.forall_mem_cons.1 hts
    have hnext : l.next = (.ok t, l.next.2) := by rw [← hhead]
    rw [ahead_of_token hnext ht, ih hts htail, List.map_cons, List.cons_append]

theorem Reads.passes {us : List Placed} (h : l.Reads us l') (hne : us ≠ []) (heof : ∀ u ∈ us, u.1 ≠ .eof) :
    ∃ ts, ts ≠ [] ∧ l.Passes ts l' := by
  obtain ⟨ts, hkinds, hs⟩ := h
  refine ⟨ts, ?_, ?_, hs⟩
  · rintro rfl
    exact hne (List.map_eq_nil_iff.1 hkinds.symm)
  · intro t ht hk
    obtain ⟨u, hu, hut⟩ := List.mem_map.1 (hkinds ▸ List.mem_map_of_mem ht)
    exact heof u hu (hut.trans hk)

end Lexer

namespace ParseM

variable {α : Type} {l l' : Lexer} {room : Nat}

/-! ## Items -/

/-- The parser takes some tokens in front of the end of the text, or leaves everything as it was. -/
structure AllOrNothing (item : ParseM (Option α)) : Prop where
  some : ∀ l l' a, item l = .ok (some a, l') → ∃ ts, ts ≠ [] ∧ l.Passes ts l'
  none : ∀ l l', item l = .ok (none, l') → l'.stream = l.stream

theorem AllOrNothing.ahead_lt {item : ParseM (Option α)} (hitem : AllOrNothing item) {a : α}
    (h : item l = .ok (.some a, l')) : l'.ahead.length < l.ahead.length := by
  obtain ⟨ts, hne, hpasses⟩ := hitem.some l l' a h
  have hpos := List.length_pos_iff.2 hne
  rw [hpasses.ahead, List.length_append, List.length_map]
  omega

/-- The parser has read tokens in front of the end of the text, if any. -/
def Advances (parser : ParseM α) : Prop :=
  ∀ l l' a, parser l = .ok (a, l') → ∃ us, l.Reads us l' ∧ ∀ u ∈ us, u.1 ≠ .eof

theorem afterComma_allOrNothing {item : ParseM α} (hitem : Advances item) : AllOrNothing (afterComma item) := by
  constructor
  · intro l l' a h
    obtain ⟨b, l₁, hb, h⟩ := bind_ok h
    cases b with
    | false => cases h
    | true =>
      obtain ⟨a', ha', haa'⟩ := map_ok h
      obtain ⟨t, ht, hdel⟩ := accept_true hb
      obtain ⟨us, hus, heof⟩ := hitem _ _ _ ha'
      have hread : l.Reads ((.comma, 0) :: us) l' := Reads.cons hdel ht hus
      exact hread.passes (by simp) (List.forall_mem_cons.2 ⟨by simp, heof⟩)
  · intro l l' h
    obtain ⟨b, l₁, hb, h⟩ := bind_ok h
    cases b with
    | false => cases h; exact (accept_false hb).2
    | true =>
      obtain ⟨a', -, haa'⟩ := map_ok h
      cases haa'

theorem identifier_advances (place : ParseError.Place) : Advances (identifier place) := by
  intro l l' name h
  obtain ⟨t, ht, hdel⟩ := identifier_ok h
  exact ⟨_, Reads.single 0 hdel ht, by simp⟩

theorem atom_allOrNothing (hroom : room ≤ maxNesting) : AllOrNothing (atom room) := by
  have hsound : Sound 5 (maxNesting - room) (atom room) := atom_sound room (by omega)
  refine ⟨fun l l' e h => ?_, fun l l' h => hsound h⟩
  obtain ⟨us, hus, hexpr, -⟩ := hsound h
  obtain ⟨u, vs, rfl, -⟩ := hexpr.opens
  exact hus.passes (by simp) hexpr.ne_eof

/-- No operator is of a level above the fourth, so the loop for such a level ends at once. -/
theorem binary_of_le {atom : ParseM (Option Measured)} {level : Nat} (h : 5 ≤ level) :
    binary atom level = binary atom 5 := by
  have hclimb : climb atom level = climb atom 5 := by
    funext left
    unfold climb
    refine congrArg (next >>= ·) (funext fun t => ?_)
    cases hop : t.kind.binaryOp? with
    | none => rfl
    | some op =>
      have hlt := op.precedence_lt
      simp only
      rw [if_neg (by omega), if_neg (by omega)]
  rw [binary_eq, binary_eq, hclimb]

theorem binary_allOrNothing (hroom : room ≤ maxNesting) (level : Nat) : AllOrNothing (binary (atom room) level) := by
  have hsound : Sound 5 (maxNesting - room) (atom room) := atom_sound room (by omega)
  have hgreedy : ∃ k, binary (atom room) level = binary (atom room) k ∧
      Greedy k (maxNesting - room) (binary (atom room) k) := by
    by_cases hle : level ≤ 5
    · exact ⟨level, rfl, binary_greedy (by omega) hsound (5 - level) (by omega)⟩
    · exact ⟨5, binary_of_le (by omega), binary_greedy (by omega) hsound 0 rfl⟩
  constructor
  · obtain ⟨k, heq, hgreedy⟩ := hgreedy
    intro l l' e h
    obtain ⟨us, hus, hexpr, -⟩ := hgreedy l l' e (heq ▸ h)
    obtain ⟨u, vs, rfl, -⟩ := hexpr.opens
    exact hus.passes (by simp) hexpr.ne_eof
  · exact fun l l' h => binary_none hsound h

theorem argument_advances (hroom : room ≤ maxNesting) (callee : String) :
    Advances (required (.inArgs callee) (binary (atom room) 0)) := by
  intro l l' e h
  have hsound : Sound 5 (maxNesting - room) (atom room) := atom_sound room (by omega)
  obtain ⟨us, hus, hexpr, -⟩ := binary_sound (by omega) hsound (required_ok h)
  exact ⟨us, hus, hexpr.ne_eof⟩

theorem expression_allOrNothing (hroom : room ≤ maxNesting) : AllOrNothing (expression room) := by
  refine ⟨fun l l' e h => ?_, fun l l' h => expression_sound (Nat.add_sub_of_le hroom) h⟩
  obtain ⟨us, hus, hexpr, -⟩ := expression_sound (Nat.add_sub_of_le hroom) h
  obtain ⟨u, vs, rfl, -⟩ := hexpr.opens
  exact hus.passes (by simp) hexpr.ne_eof

theorem statement_allOrNothing (hroom : room ≤ maxNesting) : AllOrNothing (statement room) := by
  have hsound : SoundStmt (maxNesting - room) (statement room) := statement_sound room (by omega)
  refine ⟨fun l l' s h => ?_, fun l l' h => hsound h⟩
  obtain ⟨us, hus, hstmt, -⟩ := hsound h
  obtain ⟨⟨u, vs, rfl, -⟩, heof⟩ := hstmt.tokens
  exact hus.passes (by simp) heof

/-! ## Functions at any level

A program has its functions at the outermost level; the parser for them does not depend on it. -/

/-- What follows `func` or `proc`, where `body` parses the statements. -/
def declarationWith (body : ParseM (List Stmt)) (kind : FunctionKind) : ParseM Function := do
  let name ← identifier .afterFunctionKeyword
  let _ ← expect .lparen .afterFunctionName
  let params ← names .params
  let _ ← expect .rparen .afterParams
  let _ ← expect .lbrace .beforeBody
  let locals ← localNames
  let body ← body
  let _ ← expect .rbrace .afterBody
  return { name, params, locals, body, kind }

def functionWith (body : ParseM (List Stmt)) : ParseM (Option Function) := do
  let t ← next
  match t.kind with
  | .kwFunc => some <$> declarationWith body .func
  | .kwProc => some <$> declarationWith body .proc
  | _ =>
    revert t
    return none

def programWith (body : ParseM (List Stmt)) : ParseM Program := do
  let functions ← many (functionWith body)
  let t ← next
  if t.kind = .eof then
    return functions
  else
    fail (.expected .endOfInput t.kind) t.loc

theorem statements_advances (hroom : room ≤ maxNesting) : Advances (many (statement room)) := by
  intro l l' ss h
  obtain ⟨body, -, hstmts, hr, -⟩ := statements_sound (statement_sound room (Nat.add_sub_of_le hroom)) h
  refine ⟨_, hr, fun u hu => ?_⟩
  obtain ⟨us, hus, hu⟩ := List.mem_flatten.1 hu
  obtain ⟨s, hs, rfl⟩ := List.mem_map.1 hus
  exact (hstmts s hs).tokens.2 u hu

theorem declarationWith_advances {body : ParseM (List Stmt)} (hbody : Advances body) (kind : FunctionKind) :
    Advances (declarationWith body kind) := by
  intro l l' f h
  obtain ⟨name, l₂, hname, h⟩ := bind_ok h
  obtain ⟨t₂, l₃, hopen, h⟩ := bind_ok h
  obtain ⟨params, l₄, hparams, h⟩ := bind_ok h
  obtain ⟨t₄, l₅, hclose, h⟩ := bind_ok h
  obtain ⟨t₅, l₆, hbrace, h⟩ := bind_ok h
  obtain ⟨locals, l₇, hlocals, h⟩ := bind_ok h
  obtain ⟨ss, l₈, hss, h⟩ := bind_ok h
  obtain ⟨t₈, l₉, hend, h⟩ := bind_ok h
  cases h
  obtain ⟨t₁, ht₁, hd₁⟩ := identifier_ok hname
  obtain ⟨ht₂, hd₂⟩ := expect_ok hopen
  obtain ⟨ht₄, hd₄⟩ := expect_ok hclose
  obtain ⟨ht₅, hd₅⟩ := expect_ok hbrace
  obtain ⟨ht₈, hd₈⟩ := expect_ok hend
  obtain ⟨ls, hls, hl⟩ := localNames_sound hlocals
  obtain ⟨us, hus, heof⟩ := hbody _ _ _ hss
  have hread : l.Reads ((.ident name, 0) :: (.lparen, 0) :: (Grammar.names params ++ (.rparen, 0) :: (.lbrace, 0) ::
      (ls ++ (us ++ [(.rbrace, 0)])))) l' :=
    Reads.cons hd₁ ht₁ (Reads.cons hd₂ ht₂ ((names_sound hparams).append
      (Reads.cons hd₄ ht₄ (Reads.cons hd₅ ht₅ (hls.append (hus.append (Reads.single 0 hd₈ ht₈)))))))
  refine ⟨_, hread, ?_⟩
  simp only [List.forall_mem_cons, List.forall_mem_append]
  exact ⟨by simp, by simp, names_ne_eof params, by simp, by simp, hl.ne_eof, heof, by simp⟩

theorem functionWith_allOrNothing {body : ParseM (List Stmt)} (hbody : Advances body) :
    AllOrNothing (functionWith body) := by
  constructor
  · intro l l' f h
    obtain ⟨t, l₁, hnext, h⟩ := bind_ok h
    have hdeclared : ∀ kind f, declarationWith body kind l₁ = .ok (f, l') → t.kind = kind.token →
        ∃ ts, ts ≠ [] ∧ l.Passes ts l' := by
      intro kind f hf ht
      obtain ⟨us, hus, heof⟩ := declarationWith_advances hbody kind _ _ _ hf
      have hread : l.Reads ((kind.token, 0) :: us) l' := Reads.cons (next_ok hnext) ht hus
      refine hread.passes (by simp) (List.forall_mem_cons.2 ⟨?_, heof⟩)
      cases kind <;> simp [FunctionKind.token]
    cases hk : t.kind with
    | kwFunc =>
      simp only [hk] at h
      obtain ⟨f', hf, -⟩ := map_ok h
      exact hdeclared .func f' hf hk
    | kwProc =>
      simp only [hk] at h
      obtain ⟨f', hf, -⟩ := map_ok h
      exact hdeclared .proc f' hf hk
    | _ =>
      simp only [hk] at h
      cases h
  · intro l l' h
    obtain ⟨t, l₁, hnext, h⟩ := bind_ok h
    cases hk : t.kind with
    | kwFunc | kwProc =>
      simp only [hk] at h
      obtain ⟨f', -, hff'⟩ := map_ok h
      cases hff'
    | _ =>
      simp only [hk] at h
      cases h
      exact (next_ok hnext).stream_revert

/-! ## Repetitions -/

/-- One more item on top of those that are there. -/
def another (item : ParseM (Option α)) (items : List α) : ParseM (Option (List α)) := do
  return (← item).map (· :: items)

/-- What a repetition does behind an item. -/
def behind (rest : ParseM (List α)) : Option α → ParseM (List α)
  | none => return []
  | some a => (a :: ·) <$> rest

theorem map_eq {β : Type} (f : α → β) (x : ParseM α) (l : Lexer) :
    (f <$> x) l = (x l).map fun r => (f r.1, r.2) := by
  rw [← bind_pure_comp]
  cases h : x l with
  | error e => rw [bind_error h]; rfl
  | ok r => rw [bind_run h]; rfl

section

variable {item : ParseM (Option α)} {n : Nat} {found : List α}

theorem upTo_error {e : ParseError} (h : item l = .error e) : upTo (another item) (n + 1) found l = .error e :=
  bind_error (bind_error h)

theorem upTo_none (h : item l = .ok (none, l')) : upTo (another item) (n + 1) found l = .ok (found, l') := by
  have hnone : another item found l = .ok (none, l') := bind_run h
  rw [upTo, bind_run hnone]
  rfl

theorem upTo_some {a : α} (h : item l = .ok (some a, l')) :
    upTo (another item) (n + 1) found l = upTo (another item) n (a :: found) l' := by
  have hsome : another item found l = .ok (some (a :: found), l') := bind_run h
  rw [upTo, bind_run hsome]

theorem upTo_found (n : Nat) (found : List α) (l : Lexer) :
    upTo (another item) n found l = (upTo (another item) n [] l).map fun r => (r.1 ++ found, r.2) := by
  induction n generalizing found l with
  | zero => rfl
  | succ n ih =>
    cases h : item l with
    | error e => rw [upTo_error h, upTo_error h]; rfl
    | ok r =>
      obtain ⟨a | a, l'⟩ := r
      · rw [upTo_none h, upTo_none h]
        rfl
      · rw [upTo_some h, upTo_some h, ih (a :: found), ih [a]]
        cases upTo (another item) n [] l' with
        | error e => rfl
        | ok r => simp [Except.map]

/-- The bound does not matter as soon as it is large enough for what lies ahead. -/
theorem upTo_enough (hitem : AllOrNothing item) {m : Nat} (hn : l.ahead.length ≤ n) (hm : l.ahead.length ≤ m) :
    upTo (another item) n found l = upTo (another item) m found l := by
  have hpos := List.length_pos_iff.2 l.ahead_ne_nil
  induction n generalizing m found l with
  | zero => omega
  | succ n ih =>
    obtain ⟨m, rfl⟩ : ∃ k, m = k + 1 := ⟨m - 1, by omega⟩
    cases h : item l with
    | error e => rw [upTo_error h, upTo_error h]
    | ok r =>
      obtain ⟨a | a, l'⟩ := r
      · rw [upTo_none h, upTo_none h]
      · have hlt := hitem.ahead_lt h
        rw [upTo_some h, upTo_some h]
        exact ih (by omega) (by omega) (List.length_pos_iff.2 l'.ahead_ne_nil)

theorem many_run_eq (item : ParseM (Option α)) (l : Lexer) :
    many item l = (upTo (another item) (l.size + 1) [] l).map fun r => (r.1.reverse, r.2) := by
  have hget : (get : ParseM Lexer) l = .ok (l, l) := rfl
  unfold many
  rw [bind_run hget, bind_pure_comp, map_eq]
  rfl

/-- A repetition is an item and a repetition behind it, if there is an item. -/
theorem many_eq (hitem : AllOrNothing item) : many item = item >>= behind (many item) := by
  funext l
  rw [many_run_eq]
  cases h : item l with
  | error e => rw [upTo_error h, bind_error h]; rfl
  | ok r =>
    rw [bind_run h]
    obtain ⟨a | a, l'⟩ := r
    · rw [upTo_none h]
      rfl
    · have hlt := hitem.ahead_lt h
      have hle := l.length_ahead_le
      have hmore : upTo (another item) l.size [] l' = upTo (another item) (l'.size + 1) [] l' :=
        upTo_enough hitem (by omega) l'.length_ahead_le
      rw [upTo_some h, upTo_found, hmore]
      simp only [behind, map_eq, many_run_eq]
      cases upTo (another item) (l'.size + 1) [] l' with
      | error e => rfl
      | ok r => simp [Except.map]

end

end ParseM

end Wordlang
