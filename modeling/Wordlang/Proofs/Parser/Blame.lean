import Wordlang.Proofs.Parser.Laziness
import Wordlang.Proofs.Parser.Languages

/-!
# Errors are located at the earliest wrong token

The parser over a list of tokens is followed by the language of what may still come. Where the parser goes on, so
does the language: by what stands behind the tokens that were taken. Where it fails at a token, some word of the
language starts with the tokens before it, and none goes on with that token. The limits on nesting are not part
of the languages, and neither are their errors.

Main statement: `Program.parse_error_at_earliest`.
-/

namespace Wordlang

/-- Kinds with which an expression would go on. -/
def Token.Kind.continuesExpression (kind : Token.Kind) : Bool := kind.isOperator || kind == .lparen

/-- Kinds with which a statement starts, and those of declarations, which are refused in its place. -/
def Token.Kind.opensStatement (kind : Token.Kind) : Bool :=
  kind.opensExpression || kind == .kwReturn || kind == .kwIf || kind.declares

open Grammar
open scoped Computability

/-! ## Languages of what may come -/

namespace Grammar

variable {kind : Token.Kind} {p : Token.Kind → Bool} {L M : Language Token.Kind}

/-- There is something that may come. -/
def Possible (L : Language Token.Kind) : Prop := ∃ w, w ∈ L

/-- No word starts with a token of these kinds. -/
def Avoids (p : Token.Kind → Bool) (L : Language Token.Kind) : Prop := ∀ kind, p kind = true → derivative kind L = 0

theorem Possible.mul (h : Possible L) (h' : Possible M) : Possible (L * M) := by
  obtain ⟨v, hv⟩ := h
  obtain ⟨w, hw⟩ := h'
  exact ⟨v ++ w, Language.append_mem_mul hv hw⟩

theorem possible_token (kind : Token.Kind) : Possible (token kind) := ⟨[kind], singleton_mem_token kind⟩

theorem possible_name : Possible (oneOf Token.Kind.isName) := ⟨[.ident ""], singleton_mem_oneOf rfl⟩

theorem Possible.kstar_mul (h : Possible M) (L : Language Token.Kind) : Possible (L∗ * M) := by
  obtain ⟨w, hw⟩ := h
  exact ⟨w, Language.append_mem_mul (Language.nil_mem_kstar L) hw⟩

theorem avoids_token_mul (h : p kind = false) (L : Language Token.Kind) : Avoids p (token kind * L) := by
  intro k hk
  rw [derivative_token_mul, if_neg]
  rintro rfl
  simp [h] at hk

theorem avoids_token (kind : Token.Kind) (h : p kind = false) : Avoids p (token kind) := by
  rw [← mul_one (token kind)]
  exact avoids_token_mul h 1

theorem Avoids.kstar_mul (hM : Avoids p M) (hL : Avoids p L) (hnil : [] ∉ L) : Avoids p (L∗ * M) := by
  intro k hk
  rw [derivative_kstar_mul hnil, hL k hk, hM k hk, zero_mul, add_zero]

theorem avoids_zero (p : Token.Kind → Bool) : Avoids p 0 := fun _ _ => rfl

theorem possible_atoms (depth : Nat) : Possible (atoms depth) := ⟨_, mem_words (.number depth 0)⟩

end Grammar

namespace LookM

variable {α β : Type} {R L M : Language Token.Kind} {t : Token} {ts ts' : List Token}

/-! ## Following a parser -/

/-- The word starts with the token that stands next. -/
def Agrees (ts : List Token) (w : List Token.Kind) : Prop := ∀ t ∈ ts.head?, w.head? = some t.kind

/-- A parse that starts where `R` may come, and after which `R' a` may come. What it has not taken it has looked
at, by one token at most. -/
inductive Outcome (R : Language Token.Kind) (R' : α → Language Token.Kind) (ts : List Token) :
    Except Stop (α × List Token) → Prop
  | ok {a : α} {us ts' : List Token} : ts = us ++ ts' →
    (∀ w ∈ R' a, us.map (·.kind) ++ w ∈ R) →
    (∀ w, Agrees ts' w → us.map (·.kind) ++ w ∈ R → w ∈ R' a) → Outcome R R' ts (.ok (a, ts'))
  | ranOut : Outcome R R' ts (.error .ranOut)
  | tooDeep {e : ParseError} : e.cause = .codeTooDeep ∨ e.cause = .expressionTooDeep →
    Outcome R R' ts (.error (.failed e))
  | failed {e : ParseError} {us ts' : List Token} {t : Token} : ts = us ++ t :: ts' → e.loc = t.loc →
    (∃ w, us.map (·.kind) ++ w ∈ R) → (∀ w, us.map (·.kind) ++ t.kind :: w ∉ R) →
    Outcome R R' ts (.error (.failed e))

def Follows (R : Language Token.Kind) (x : LookM α) (R' : α → Language Token.Kind) : Prop :=
  ∀ ts, Outcome R R' ts (x ts)

/-- An optional construct, in front of what may come behind it or instead of it. -/
def Optional (N : Language Token.Kind) (follow first : Token.Kind → Bool) (x : LookM (Option α)) : Prop :=
  ∀ L M, Possible L → Avoids follow L → Avoids first M → Follows (N * L + M) x (·.elim M fun _ => L)

theorem agrees_cons {w : List Token.Kind} : Agrees (t :: ts) w ↔ ∃ v, w = t.kind :: v := by
  simp [Agrees, List.head?_eq_some_iff]

theorem Agrees.append {w : List Token.Kind} (us : List Token) (h : Agrees ts w) :
    Agrees (us ++ ts) (us.map (·.kind) ++ w) := by
  cases us with
  | nil => exact h
  | cons u us => exact agrees_cons.2 ⟨_, rfl⟩

namespace Outcome

variable {R₁ : α → Language Token.Kind} {R₂ : β → Language Token.Kind}

/-- What happens behind tokens that were taken. -/
theorem behind {us : List Token} {r : Except Stop (β × List Token)} (hts : ts = us ++ ts')
    (hsound : ∀ w ∈ L, us.map (·.kind) ++ w ∈ R)
    (hcomplete : ∀ w, Agrees ts' w → us.map (·.kind) ++ w ∈ R → w ∈ L) (h : Outcome L R₂ ts' r) :
    Outcome R R₂ ts r := by
  subst hts
  cases h with
  | @ok b vs ts'' hts' hs hc =>
    subst hts'
    refine .ok (List.append_assoc us vs ts'').symm (fun w hw => ?_) fun w hw hmem => ?_
    · rw [List.map_append, List.append_assoc]
      exact hsound _ (hs w hw)
    · rw [List.map_append, List.append_assoc] at hmem
      exact hc w hw (hcomplete _ (hw.append vs) hmem)
  | ranOut => exact .ranOut
  | tooDeep he => exact .tooDeep he
  | @failed e vs ts'' t hts' hloc hviable hdead =>
    subst hts'
    obtain ⟨w, hw⟩ := hviable
    refine .failed (List.append_assoc us vs (t :: ts'')).symm hloc ⟨w, ?_⟩ fun w hmem => ?_
    · rw [List.map_append, List.append_assoc]
      exact hsound _ hw
    · rw [List.map_append, List.append_assoc] at hmem
      exact hdead w (hcomplete _ (Agrees.append vs (agrees_cons.2 ⟨w, rfl⟩)) hmem)

theorem bind {x : LookM α} {f : α → LookM β} (hx : Outcome R R₁ ts (x ts))
    (hf : ∀ a ts', x ts = .ok (a, ts') → Outcome (R₁ a) R₂ ts' (f a ts')) : Outcome R R₂ ts ((x >>= f) ts) := by
  change Outcome R R₂ ts ((x ts).bind fun r => f r.1 r.2)
  generalize x ts = r at hx hf
  cases hx with
  | ok hts hs hc => exact behind hts hs hc (hf _ _ rfl)
  | ranOut => exact .ranOut
  | tooDeep he => exact .tooDeep he
  | failed hts hloc hviable hdead => exact .failed hts hloc hviable hdead

theorem map {x : LookM α} {f : α → β} (hx : Outcome R (fun a => R₂ (f a)) ts (x ts)) :
    Outcome R R₂ ts ((f <$> x) ts) := by
  change Outcome R R₂ ts ((x ts).bind fun r => .ok (f r.1, r.2))
  generalize x ts = r at hx
  cases hx with
  | ok hts hs hc => exact .ok hts hs hc
  | ranOut => exact .ranOut
  | tooDeep he => exact .tooDeep he
  | failed hts hloc hviable hdead => exact .failed hts hloc hviable hdead

theorem pure {a : α} (h : R₁ a = R) : Outcome R R₁ ts ((Pure.pure a : LookM α) ts) :=
  .ok (List.nil_append ts).symm (fun _ hw => h ▸ hw) fun _ _ hw => h ▸ hw

/-- To look at the next token. -/
theorem look {f : Token → LookM α} (h : ∀ t ts', ts = t :: ts' → Outcome R R₁ (t :: ts') (f t (t :: ts'))) :
    Outcome R R₁ ts ((ahead 0 >>= f) ts) := by
  cases ts with
  | nil => exact .ranOut
  | cons t ts' => exact h t ts' rfl

/-- To take it. -/
theorem taken {r : Except Stop (α × List Token)} (h : Outcome (derivative t.kind R) R₁ ts r) :
    Outcome R R₁ (t :: ts) r :=
  have hts : t :: ts = [t] ++ ts := rfl
  behind hts (fun _ hw => hw) (fun _ _ hw => hw) h

theorem step {y : LookM α} (h : Outcome (derivative t.kind R) R₁ ts (y ts)) :
    Outcome R R₁ (t :: ts) ((skip 1 >>= fun _ => y) (t :: ts)) := taken h

/-- The next token tells what else may come. -/
theorem restrict {r : Except Stop (α × List Token)} (h : Outcome L R₁ (t :: ts) r) (hle : L ≤ R)
    (hnext : derivative t.kind R ≤ derivative t.kind L) : Outcome R R₁ (t :: ts) r := by
  have hts : t :: ts = [] ++ t :: ts := rfl
  refine behind hts (fun w hw => hle hw) (fun w hw hmem => ?_) h
  obtain ⟨v, rfl⟩ := agrees_cons.1 hw
  exact hnext hmem

/-- The next two tokens tell what else may come, if the first of them is taken. -/
theorem restrict_two {u : Token} {r : Except Stop (α × List Token)} (h : Outcome L R₁ (t :: u :: ts) r) (hle : L ≤ R)
    (hnext : derivative u.kind (derivative t.kind R) ≤ derivative u.kind (derivative t.kind L))
    (hfirst : Possible (derivative t.kind L)) (htaken : ∀ a, r ≠ .ok (a, t :: u :: ts)) :
    Outcome R R₁ (t :: u :: ts) r := by
  -- `L` and `R` may differ behind the first token alone, so `behind` does not apply: what is known of a word is
  -- known only once the second token is part of it.
  have hmem : ∀ {us ts' w}, u :: ts = us ++ ts' → Agrees ts' w → t.kind :: (us.map (·.kind) ++ w) ∈ R →
      t.kind :: (us.map (·.kind) ++ w) ∈ L := by
    intro us ts' w hts hw hmem
    have hagrees := hw.append us
    rw [← hts] at hagrees
    obtain ⟨v, hv⟩ := agrees_cons.1 hagrees
    rw [hv] at hmem ⊢
    exact hnext hmem
  cases h with
  | @ok a us ts' hts hs hc =>
    cases us with
    | nil => exact absurd (by rw [hts]; rfl) (htaken a)
    | cons v us =>
      obtain ⟨rfl, hus⟩ := List.cons.inj hts
      exact .ok hts (fun w hw => hle (hs w hw)) fun w hw h => hc w hw (hmem hus hw h)
  | ranOut => exact .ranOut
  | tooDeep he => exact .tooDeep he
  | @failed e us ts' t' hts hloc hviable hdead =>
    cases us with
    | nil =>
      obtain ⟨rfl, -⟩ := List.cons.inj hts
      obtain ⟨w, hw⟩ := hfirst
      exact absurd hw (hdead w)
    | cons v us =>
      obtain ⟨rfl, hus⟩ := List.cons.inj hts
      obtain ⟨w, hw⟩ := hviable
      exact .failed hts hloc ⟨w, hle hw⟩ fun w h => hdead w (hmem hus (agrees_cons.2 ⟨w, rfl⟩) h)

/-- The next token starts the first of two languages. -/
theorem first {y : LookM α} (hM : derivative t.kind M = 0) (h : Outcome (derivative t.kind L) R₁ ts (y ts)) :
    Outcome (L + M) R₁ (t :: ts) ((skip 1 >>= fun _ => y) (t :: ts)) := by
  refine step ?_
  rw [derivative_add, hM, add_zero]
  exact h

/-- It does not start the first of them. -/
theorem second {r : Except Stop (α × List Token)} (hL : derivative t.kind L = 0) (h : Outcome M R₁ (t :: ts) r) :
    Outcome (L + M) R₁ (t :: ts) r := by
  refine restrict h le_add_self ?_
  rw [derivative_add, hL, zero_add]

theorem fail (cause : ParseError.Cause) (hR : Possible R) (hnext : derivative t.kind R = 0) :
    Outcome R R₁ (t :: ts) (LookM.fail cause t.loc (t :: ts)) := by
  obtain ⟨w, hw⟩ := hR
  have hts : t :: ts = [] ++ t :: ts := rfl
  refine .failed hts rfl ⟨w, hw⟩ fun v hv => ?_
  have hmem : v ∈ derivative t.kind R := hv
  rw [hnext] at hmem
  exact hmem

theorem enter {inner : Option β} {f : β → LookM α} (loc : Location)
    (h : ∀ b ∈ inner, Outcome R R₁ ts (f b ts)) : Outcome R R₁ ts ((LookM.enter inner loc >>= f) ts) := by
  cases inner with
  | none => exact .tooDeep (.inl rfl)
  | some b => exact h b rfl

end Outcome

theorem Follows.bind {x : LookM α} {f : α → LookM β} {R₁ : α → Language Token.Kind} {R₂ : β → Language Token.Kind}
    (hx : Follows R x R₁) (hf : ∀ a, Follows (R₁ a) (f a) R₂) : Follows R (x >>= f) R₂ :=
  fun ts => (hx ts).bind fun a ts' _ => hf a ts'

theorem Follows.map {x : LookM α} {f : α → β} {R₂ : β → Language Token.Kind}
    (hx : Follows R x fun a => R₂ (f a)) : Follows R (f <$> x) R₂ :=
  fun ts => (hx ts).map

theorem Follows.pure {R₁ : α → Language Token.Kind} {a : α} (h : R₁ a = R) : Follows R (Pure.pure a) R₁ :=
  fun _ => .pure h

/-! ## Tokens -/

theorem accept_follows (kind : Token.Kind) (hM : derivative kind M = 0) :
    Follows (token kind * L + M) (accept kind) fun b => if b then L else M := by
  intro ts
  refine .look fun t ts' _ => ?_
  by_cases hkind : t.kind = kind
  · rw [if_pos hkind]
    refine .first (hkind ▸ hM) ?_
    rw [derivative_token_mul, if_pos hkind]
    exact .pure rfl
  · rw [if_neg hkind]
    exact .second (by rw [derivative_token_mul, if_neg hkind]) (.pure rfl)

theorem expect_follows (kind : Token.Kind) (place : ParseError.Place) (hL : Possible L) :
    Follows (token kind * L) (expect kind place) fun _ => L := by
  intro ts
  refine .look fun t ts' _ => ?_
  by_cases hkind : t.kind = kind
  · rw [if_pos hkind]
    refine .step ?_
    rw [derivative_token_mul, if_pos hkind]
    exact .pure rfl
  · rw [if_neg hkind]
    exact .fail _ ((possible_token kind).mul hL) (by rw [derivative_token_mul, if_neg hkind])

theorem identifier_follows (place : ParseError.Place) (hL : Possible L) :
    Follows (oneOf Token.Kind.isName * L) (identifier place) fun _ => L := by
  intro ts
  refine .look fun t ts' _ => ?_
  obtain ⟨kind, loc⟩ := t
  cases kind with
  | ident name =>
    refine .step ?_
    rw [derivative_oneOf_mul_of rfl]
    exact .pure rfl
  | _ => exact .fail _ (possible_name.mul hL) (derivative_oneOf_mul_of_not rfl)

/-! ## Optional constructs -/

/-- Where the construct is missing nothing is taken. -/
def Stays (x : LookM (Option α)) : Prop := ∀ ts ts', x ts = .ok (none, ts') → ts' = ts

/-- Where the construct is there some token is taken. -/
def Advances (x : LookM (Option α)) : Prop := ∀ ts ts' a, x ts = .ok (some a, ts') → ts'.length < ts.length

section

variable {N : Language Token.Kind} {follow first : Token.Kind → Bool} {x : LookM (Option α)}

/-- What came instead of the construct and what came behind it are told apart by how they end. -/
theorem Follows.stays {R' : α → Language Token.Kind}
    (h : Follows (N * token .eof + token .rbrace) x (·.elim (token .rbrace) R')) : Stays x := by
  intro ts ts' hx
  have houtcome := h ts
  rw [hx] at houtcome
  cases houtcome with
  | @ok _ us _ hts hsound _ =>
    rcases hsound [.rbrace] (singleton_mem_token _) with hmem | hmem
    · obtain ⟨v, -, hv⟩ := mem_mul_token.1 hmem
      cases (List.append_inj' hv rfl).2
    · have hus : us.map (·.kind) = [] := List.append_cancel_right (mem_token.1 hmem)
      rw [hts, List.map_eq_nil_iff.1 hus, List.nil_append]

theorem Follows.advances (hN : [] ∉ N)
    (h : Follows (N * token .eof + token .rbrace) x (·.elim (token .rbrace) fun _ => token .eof)) : Advances x := by
  intro ts ts' a hx
  have houtcome := h ts
  rw [hx] at houtcome
  cases houtcome with
  | @ok _ us _ hts hsound _ =>
    have hne : us ≠ [] := by
      rintro rfl
      rcases hsound [.eof] (singleton_mem_token _) with hmem | hmem
      · obtain ⟨v, hv, heq⟩ := mem_mul_token.1 hmem
        obtain rfl : [] = v := List.append_cancel_right heq
        exact hN hv
      · cases mem_token.1 hmem
    have hpos := List.length_pos_iff.2 hne
    rw [hts, List.length_append]
    omega

theorem Optional.probe (h : Optional N follow first x) (hfollow : follow .eof = false)
    (hfirst : first .rbrace = false) :
    Follows (N * token .eof + token .rbrace) x (·.elim (token .rbrace) fun _ => token .eof) :=
  h _ _ (possible_token .eof) (avoids_token .eof hfollow) (avoids_token .rbrace hfirst)

/-- Where the construct is missing, nothing else than what comes instead of it goes on with the next token. -/
theorem Follows.derivative_le {R' : α → Language Token.Kind} (h : Follows R x (·.elim M R')) (hstays : Stays x)
    (hx : x (t :: ts) = .ok (none, ts')) : derivative t.kind R ≤ derivative t.kind M := by
  intro w hw
  have houtcome := h (t :: ts)
  rw [hx] at houtcome
  cases houtcome with
  | @ok _ us _ hts _ hcomplete =>
    rw [hstays _ _ hx, List.self_eq_append_left] at hts
    subst hts
    exact hcomplete (t.kind :: w) (hstays _ _ hx ▸ agrees_cons.2 ⟨w, rfl⟩) hw

theorem required_follows (place : ParseError.Place) (hR : Possible R) (hstays : Stays x)
    (h : Follows R x (·.elim 0 fun _ => L)) : Follows R (required place x) fun _ => L := by
  intro ts
  rcases hx : x ts with e | ⟨_ | a, ts'⟩
  · refine (h ts).bind fun a ts' heq => ?_
    rw [hx] at heq
    cases heq
  · have hrequired : required place x ts =
        (ahead 0 >>= fun t => fail (.expected (.expression place) t.kind) t.loc : LookM α) ts := by
      change (x ts).bind _ = _
      rw [hx, hstays ts ts' hx]
      rfl
    rw [hrequired]
    refine .look ?_
    rintro t us rfl
    exact .fail _ hR (le_bot_iff.1 (h.derivative_le hstays hx))
  · refine (h ts).bind fun b ts' heq => ?_
    rw [hx] at heq
    cases heq
    exact .pure rfl

/-! ## Repetition -/

/-- The steps of a loop keep what may come, and when they end then `L` may. The invariant tells that the bound is not
what ends them. -/
theorem upTo_outcome {step : α → LookM (Option α)} {I : Nat → α → List Token → Prop}
    (hstep : ∀ a, Follows R (step a) (·.elim L fun _ => R))
    (hnext : ∀ n a a' ts ts', I (n + 1) a ts → step a ts = .ok (some a', ts') → I n a' ts')
    (hzero : ∀ a ts, ¬ I 0 a ts) (n : Nat) (a : α) (ts : List Token) (h : I n a ts) :
    Outcome R (fun _ => L) ts (upTo step n a ts) := by
  induction n generalizing a ts with
  | zero => exact absurd h (hzero a ts)
  | succ n ih =>
    refine (hstep a ts).bind fun o ts' ho => ?_
    cases o with
    | none => exact .pure rfl
    | some a' => exact ih a' ts' (hnext n a a' ts ts' h ho)

theorem many_follows (hitem : Optional N follow first x) (hN : [] ∉ N) (hfollow : follow .eof = false)
    (hfirst : first .rbrace = false) (hL : Possible L) (hLfollow : Avoids follow (N∗ * L)) (hLfirst : Avoids first L) :
    Follows (N∗ * L) (many x) fun _ => L := by
  -- There are fewer items than rounds, as each item takes a token.
  have hadvances := (hitem.probe hfollow hfirst).advances hN
  have hloop := hitem _ _ (hL.kstar_mul N) hLfollow hLfirst
  rw [← kstar_mul_eq] at hloop
  intro ts
  change Outcome _ _ ts ((List.reverse <$> upTo (fun items => x >>= fun o => pure (o.map (· :: items)))
    (ts.length + 1) []) ts)
  refine .map (upTo_outcome (I := fun n _ ts => ts.length < n) (fun items => ?_) (fun n items items' ts ts' h hx => ?_)
    (fun _ ts h => Nat.not_lt_zero ts.length h) _ _ _ (Nat.lt_succ_self _))
  · refine hloop.bind fun o => ?_
    cases o with
    | none => exact .pure rfl
    | some item => exact .pure rfl
  · change (x ts).bind (fun r => .ok (r.1.map (· :: items), r.2)) = _ at hx
    rcases hitem : x ts with e | ⟨_ | item, us⟩ <;> rw [hitem] at hx <;> cases hx
    exact Nat.lt_of_lt_of_le (hadvances ts us item hitem) (Nat.le_of_lt_succ h)

theorem afterComma_optional {y : LookM α} (hy : ∀ L, Possible L → Avoids follow L → Follows (N * L) y fun _ => L) :
    Optional (token .comma * N) follow (· == .comma) (afterComma y) := by
  intro L M hL hfollow hfirst
  rw [mul_assoc]
  refine (accept_follows .comma (hfirst .comma rfl)).bind fun b => ?_
  cases b with
  | true => exact .map (hy L hL hfollow)
  | false => exact .pure rfl

end

/-! ## Expressions -/

open Token.Kind (isNumber isName isSign isOperator opensExpression continuesExpression)

/-- The part of an expression behind an atom. -/
def row (depth : Nat) (L : Language Token.Kind) : Language Token.Kind := (oneOf isOperator * atoms depth)∗ * L

theorem row_derivative (depth : Nat) (kind : Token.Kind) (L : Language Token.Kind) :
    derivative kind (row depth L) =
      (if isOperator kind then atoms depth * row depth L else 0) + derivative kind L := by
  have hnil : [] ∉ oneOf isOperator * atoms depth := nil_notMem_mul (nil_notMem_oneOf _)
  rw [row, derivative_kstar_mul hnil, ← derivative_mul hnil, mul_assoc, derivative_oneOf_mul]

theorem le_row (depth : Nat) (L : Language Token.Kind) : L ≤ row depth L := by
  rw [row, kstar_mul_eq]
  exact le_add_self

variable {depth : Nat} {atom : LookM (Option Measured)}

theorem bind_ok {x : LookM α} {f : α → LookM β} {r : β × List Token} (h : (x >>= f) ts = .ok r) :
    ∃ a ts', x ts = .ok (a, ts') ∧ f a ts' = .ok r := by
  change (x ts).bind (fun r => f r.1 r.2) = _ at h
  rcases hx : x ts with e | ⟨a, ts'⟩ <;> rw [hx] at h
  · cases h
  · exact ⟨a, ts', rfl, h⟩

/-- A round of the loop over operators grows the expression, within the limit. -/
theorem climb_height {level : Nat} {left e : Measured} (h : climb atom level left ts = .ok (some e, ts')) :
    left.height < e.height ∧ e.height ≤ maxNesting + 1 := by
  obtain ⟨t, us, -, h⟩ := bind_ok h
  cases hop : t.kind.binaryOp? with
  | none =>
    rw [hop] at h
    cases h
  | some op =>
    rw [hop] at h
    dsimp only at h
    split at h
    · obtain ⟨_, _, -, h⟩ := bind_ok h
      obtain ⟨right, vs, -, h⟩ := bind_ok h
      split at h
      · cases h
      · rename_i hheight
        cases h
        exact ⟨left.height_lt_binary op right, Nat.le_of_not_lt hheight⟩
    · cases h

theorem climb_follows {level : Nat} (hle : M ≤ row depth L)
    (hend : ∀ kind, (∀ op, kind.binaryOp? = some op → op.precedence < level) →
      derivative kind (row depth L) ≤ derivative kind M)
    (hoperators : Avoids isOperator L)
    (hright : ∀ op : BinaryOp, level ≤ op.precedence → Follows (atoms depth * row depth L)
      (required (.afterOperator op) (binary atom (op.precedence + 1))) fun _ => row depth L) (left : Measured) :
    Follows (row depth L) (climb atom level left) (·.elim M fun _ => row depth L) := by
  intro ts
  refine .look fun t ts' _ => ?_
  cases hop : t.kind.binaryOp? with
  | none =>
    refine .restrict (.pure rfl) hle (hend t.kind fun op h => ?_)
    rw [hop] at h
    cases h
  | some op =>
    by_cases hlevel : level ≤ op.precedence
    · dsimp only
      rw [if_pos hlevel]
      refine .step ?_
      have hkind : isOperator t.kind = true := by rw [isOperator, hop]; rfl
      rw [row_derivative, if_pos hkind, hoperators t.kind hkind, add_zero]
      refine (hright op hlevel ts').bind fun right ts'' _ => ?_
      split
      · exact .tooDeep (.inr rfl)
      · exact .pure rfl
    · dsimp only
      rw [if_neg hlevel]
      refine .restrict (.pure rfl) hle (hend t.kind fun op' h => ?_)
      rw [hop] at h
      cases h
      exact Nat.lt_of_not_le hlevel

/-- Operands on either side of an operator are of one language, so all levels may be followed by the same row. -/
theorem binary_follows (hatom : Optional (atoms depth) (· == .lparen) opensExpression atom) (above : Nat) :
    ∀ {level : Nat} {L M K : Language Token.Kind}, 5 - level = above → Possible L → Avoids continuesExpression L →
      K ≤ row depth L →
      (∀ kind, (∀ op, kind.binaryOp? = some op → op.precedence < level) →
        derivative kind (row depth L) ≤ derivative kind K) →
      Avoids opensExpression M →
      Follows (atoms depth * row depth L + M) (binary atom level) (·.elim M fun _ => K) := by
  induction above using Nat.strong_induction_on with
  | _ above ih =>
    intro level L M K habove hL hLfollow hK hend hM
    have hoperators : Avoids isOperator L := fun kind hkind => hLfollow kind (by simp [continuesExpression, hkind])
    have hparen : Avoids (· == .lparen) (row depth L) := by
      intro kind hkind
      have hlparen : kind = .lparen := eq_of_beq hkind
      rw [row_derivative, hLfollow kind (by simp [continuesExpression, hkind]), hlparen, if_neg (by decide), add_zero]
    have hrow : Possible (row depth L) := hL.kstar_mul _
    rw [binary_eq]
    refine (hatom _ M hrow hparen hM).bind fun o => ?_
    cases o with
    | none => exact .pure rfl
    | some e =>
      have hright : ∀ op : BinaryOp, level ≤ op.precedence → Follows (atoms depth * row depth L)
          (required (.afterOperator op) (binary atom (op.precedence + 1))) fun _ => row depth L := by
        intro op hlevel
        have hlt := op.precedence_lt
        have hinner := @ih (5 - (op.precedence + 1)) (by omega) (op.precedence + 1)
        have h := hinner rfl hL hLfollow le_rfl (fun _ _ => le_rfl) (avoids_zero opensExpression)
        have hprobe := hinner rfl (possible_token .eof) (avoids_token .eof rfl) le_rfl (fun _ _ => le_rfl)
          (avoids_token .rbrace rfl)
        rw [add_zero] at h
        rw [row, ← mul_assoc] at hprobe
        exact required_follows _ ((possible_atoms depth).mul hrow) hprobe.stays h
      have hclimb := climb_follows hK hend hoperators hright
      -- Each round makes the expression higher, and a round past the limit is an error, so the rounds never run out.
      refine .map fun ts => upTo_outcome
        (I := fun n e _ => maxNesting + 1 < n + e.height ∧ (n = maxNesting + 1 ∨ e.height ≤ maxNesting + 1))
        hclimb (fun n e e' us us' h he => ?_) (fun e us h => ?_) _ _ _ ⟨?_, .inl rfl⟩
      · have := climb_height he
        omega
      · unfold maxNesting at h
        omega
      · have := e.one_le_height
        omega

theorem binary_optional (hatom : Optional (atoms depth) (· == .lparen) opensExpression atom) :
    Optional (expressions depth) continuesExpression opensExpression (binary atom 0) := by
  intro L M hL hfollow hfirst
  rw [expressions_eq, mul_assoc]
  refine binary_follows hatom 5 rfl hL hfollow (le_row depth L) (fun kind hkind => ?_) hfirst
  have hop : ¬ isOperator kind = true := by
    intro h
    obtain ⟨op, hop⟩ := Option.isSome_iff_exists.1 h
    exact absurd (hkind op hop) (Nat.not_lt_zero _)
  rw [row_derivative, if_neg hop, zero_add]

theorem possible_expressions (depth : Nat) : Possible (expressions depth) := by
  rw [expressions_eq]
  exact (possible_atoms depth).mul ⟨[], Language.nil_mem_kstar _⟩

/-- A construct that has to be there, in front of what may come behind it. -/
theorem Optional.required {N : Language Token.Kind} {follow first : Token.Kind → Bool} {x : LookM (Option α)}
    (h : Optional N follow first x) (hfollow : follow .eof = false) (hfirst : first .rbrace = false) (hN : Possible N)
    (place : ParseError.Place) (hL : Possible L) (hLfollow : Avoids follow L) :
    Follows (N * L) (required place x) fun _ => L := by
  have hfollows := h L 0 hL hLfollow (avoids_zero first)
  rw [add_zero] at hfollows
  exact required_follows place (hN.mul hL) (h.probe hfollow hfirst).stays hfollows

theorem series_mul (N L : Language Token.Kind) : series N * L = N * ((token .comma * N)∗ * L) + L := by
  rw [series, add_mul, one_mul, mul_assoc, add_comm]

theorem arguments_follows {argument : LookM (Option Measured)}
    (h : Optional (expressions depth) continuesExpression opensExpression argument) (callee : String)
    (hL : Possible L) :
    Follows (series (expressions depth) * (token .rparen * L)) (arguments callee argument) fun _ => L := by
  have hrequired : ∀ L, Possible L → Avoids continuesExpression L →
      Follows (expressions depth * L) (LookM.required (.inArgs callee) argument) fun _ => L :=
    fun L => h.required rfl rfl (possible_expressions depth) (.inArgs callee)
  have hclose : Possible (token .rparen * L) := (possible_token .rparen).mul hL
  have hnil : [] ∉ token .comma * expressions depth := nil_notMem_mul (nil_notMem_oneOf _)
  have hmore : Avoids continuesExpression ((token .comma * expressions depth)∗ * (token .rparen * L)) :=
    (avoids_token_mul rfl L).kstar_mul (avoids_token_mul rfl _) hnil
  rw [series_mul, add_comm]
  refine (accept_follows .rparen (derivative_expressions_mul depth rfl)).bind fun b => ?_
  cases b with
  | true => exact .pure rfl
  | false =>
    refine (hrequired _ (hclose.kstar_mul _) hmore).bind fun first => ?_
    refine (many_follows (afterComma_optional hrequired) hnil rfl rfl hclose hmore (avoids_token_mul rfl L)).bind
      fun more => ?_
    exact (expect_follows .rparen _ hL).bind fun _ => .pure rfl

theorem atomWith_optional {inner : Option (LookM (Option Measured))}
    (hinner : ∀ a ∈ inner, Optional (atoms (depth + 1)) (· == .lparen) opensExpression a) :
    Optional (atoms depth) (· == .lparen) opensExpression (atomWith inner) := by
  intro L M hL hfollow hfirst ts
  refine .look fun t ts' _ => ?_
  obtain ⟨kind, loc⟩ := t
  cases kind with
  | number value =>
    refine .first (hfirst _ rfl) ?_
    rw [derivative_number]
    exact .pure rfl
  | ident name =>
    refine .first (hfirst _ rfl) ?_
    rw [derivative_ident]
    refine (accept_follows .lparen (hfollow .lparen rfl) ts').bind fun b us _ => ?_
    cases b with
    | true =>
      refine .enter loc fun atom hatom => ?_
      exact (arguments_follows (binary_optional (hinner atom hatom)) name hL us).bind fun args _ _ => .pure rfl
    | false => exact .pure rfl
  | lparen =>
    refine .first (hfirst _ rfl) (.enter loc fun atom hatom => ?_)
    rw [derivative_lparen]
    have hclose : Possible (token .rparen * L) := (possible_token .rparen).mul hL
    refine ((binary_optional (hinner atom hatom)).required rfl rfl (possible_expressions _) .afterParen hclose
      (avoids_token_mul rfl L) ts').bind fun e us _ => ?_
    exact (expect_follows .rparen .afterGroup hL us).bind fun _ _ _ => .pure rfl
  | plus =>
    refine .first (hfirst _ rfl) (.enter loc fun atom hatom => .map (.map ?_))
    rw [show Token.Kind.plus = UnaryOp.identity.token from rfl, derivative_sign]
    exact (hinner atom hatom).required rfl rfl (possible_atoms _) _ hL hfollow ts'
  | minus =>
    refine .first (hfirst _ rfl) (.enter loc fun atom hatom => .map (.map ?_))
    rw [show Token.Kind.minus = UnaryOp.negate.token from rfl, derivative_sign]
    exact (hinner atom hatom).required rfl rfl (possible_atoms _) _ hL hfollow ts'
  | _ => exact .second (derivative_atoms_mul_eq_zero depth rfl) (.pure rfl)

theorem atom_optional (room : Nat) :
    ∀ depth : Nat, Optional (atoms depth) (· == .lparen) opensExpression (LookM.atom room) := by
  induction room with
  | zero => exact fun depth => atomWith_optional nofun
  | succ room ih =>
    intro depth
    refine atomWith_optional fun a ha => ?_
    cases ha
    exact ih (depth + 1)

theorem expression_optional (room depth : Nat) :
    Optional (expressions depth) continuesExpression opensExpression (expression room) := by
  intro L M hL hfollow hfirst ts
  refine .look fun t ts' _ => ?_
  refine (binary_optional (atom_optional room depth) L M hL hfollow hfirst (t :: ts')).bind fun o us _ => ?_
  cases o with
  | none => exact .pure rfl
  | some e =>
    dsimp only
    split
    · exact .tooDeep (.inr rfl)
    · exact .pure rfl

/-! ## Statements -/

/-- The rest of a `return`. -/
def leaving (room : Nat) : LookM (Option Stmt) := do
  let value ← expression room
  let _ ← expect .semicolon .afterReturn
  return some (.ret value)

/-- The rest of an assignment. -/
def assigned (room : Nat) (target : String) : LookM (Option Stmt) := do
  let value ← required .afterAssign (expression room)
  let _ ← expect .semicolon .afterAssignment
  return some (.set target value)

/-- An expression as a statement. -/
def terminated (room : Nat) : LookM (Option Stmt) := do
  match ← expression room with
  | none => return none
  | some e =>
    let _ ← expect .semicolon .afterExpr
    return some (.expr e)

/-- The next token tells the kind of a statement, except that a name may start an assignment or an expression. -/
theorem statementWith_cons (room : Nat) (inner : Option (LookM (Option Stmt))) (t : Token) (ts : List Token) :
    statementWith room inner (t :: ts) =
      match t.kind, ts with
      | .kwReturn, _ => leaving room ts
      | .kwIf, _ => (some <$> conditional room inner) ts
      | .kwFunc, _ | .kwProc, _ => fail (.nestedFunction t.kind) t.loc (t :: ts)
      | .ident _, [] => .error .ranOut
      | .ident name, u :: us => if u.kind = .assign then assigned room name us else terminated room (t :: ts)
      | _, _ => terminated room (t :: ts) := by
  obtain ⟨kind, loc⟩ := t
  cases kind with
  | ident name =>
    cases ts with
    | nil => rfl
    | cons u us =>
      obtain ⟨second, loc'⟩ := u
      cases second with
      | _ => rfl
  | _ => rfl

theorem terminated_optional (room depth : Nat) :
    Optional (expressions depth * token .semicolon) (fun _ => false) opensExpression (terminated room) := by
  intro L M hL _ hfirst
  have hend : Possible (token .semicolon * L) := (possible_token .semicolon).mul hL
  rw [mul_assoc]
  refine (expression_optional room depth _ M hend (avoids_token_mul rfl L) hfirst).bind fun o => ?_
  cases o with
  | none => exact .pure rfl
  | some e => exact (expect_follows .semicolon .afterExpr hL).bind fun _ => .pure rfl

variable {room : Nat} {inner : Option (LookM (Option Stmt))}

/-- No statement starts with another token. -/
theorem derivative_statements (depth : Nat) {kind : Token.Kind} (h : kind.opensStatement = false) :
    derivative kind (statements depth) = 0 := by
  simp only [Token.Kind.opensStatement, Bool.or_eq_false_iff, beq_eq_false_iff_ne] at h
  obtain ⟨⟨⟨hopens, hreturn⟩, hif⟩, -⟩ := h
  have hname : isName kind = false := by
    cases kind with
    | ident => cases hopens
    | _ => rfl
  rw [← mul_one (statements depth), derivative_statements_mul, derivative_expressions_mul depth hopens]
  simp [hname, hreturn, hif]

theorem avoids_statements (depth : Nat) : Avoids (· == .kwElse) (statements depth) := by
  intro kind hkind
  rw [eq_of_beq hkind]
  exact derivative_statements depth rfl

theorem possible_blocks (depth : Nat) : Possible (blocks depth) :=
  (possible_token .lbrace).mul ((possible_token .rbrace).kstar_mul _)

theorem block_follows (place : ParseError.Place)
    (hinner : ∀ s ∈ inner, Optional (statements (depth + 1)) (· == .kwElse) Token.Kind.opensStatement s)
    (hL : Possible L) : Follows (blocks depth * L) (block place inner) fun _ => L := by
  have hclose : Possible (token .rbrace * L) := (possible_token .rbrace).mul hL
  have hnil := nil_notMem_statements (depth + 1)
  rw [blocks, mul_assoc, mul_assoc]
  refine (expect_follows .lbrace place (hclose.kstar_mul _)).bind fun brace ts => ?_
  refine .enter brace.loc fun statement hs => ?_
  have helse : Avoids (· == .kwElse) ((statements (depth + 1))∗ * (token .rbrace * L)) :=
    (avoids_token_mul rfl L).kstar_mul (avoids_statements (depth + 1)) hnil
  refine (many_follows (hinner statement hs) hnil rfl rfl hclose helse (avoids_token_mul rfl L) ts).bind
    fun body us _ => ?_
  exact (expect_follows .rbrace .afterBlock hL us).bind fun _ _ _ => .pure rfl

theorem conditional_follows
    (hinner : ∀ s ∈ inner, Optional (statements (depth + 1)) (· == .kwElse) Token.Kind.opensStatement s)
    (hL : Possible L) (helse : derivative .kwElse L = 0) :
    Follows (token .lparen * (expressions depth * (token .rparen *
      (blocks depth * (token .kwElse * (blocks depth * L) + L))))) (conditional room inner) fun _ => L := by
  have hmore : Possible (token .kwElse * (blocks depth * L) + L) := by
    obtain ⟨w, hw⟩ := hL
    exact ⟨w, .inr hw⟩
  have hblock := (possible_blocks depth).mul hmore
  have hclose := (possible_token .rparen).mul hblock
  refine (expect_follows .lparen .afterIf ((possible_expressions depth).mul hclose)).bind fun _ => ?_
  refine ((expression_optional room depth).required rfl rfl (possible_expressions depth) .inCondition hclose
    (avoids_token_mul rfl _)).bind fun test => ?_
  refine (expect_follows .rparen .afterCondition hblock).bind fun _ => ?_
  refine (block_follows .afterCondition hinner hmore).bind fun yes => ?_
  refine (accept_follows .kwElse helse).bind fun b => ?_
  cases b with
  | true => exact (block_follows .afterElse hinner hL).bind fun no => .pure rfl
  | false => exact .pure rfl

theorem possible_statements (depth : Nat) : Possible (statements depth) :=
  ⟨_, mem_words (.leave depth)⟩

theorem expressions_le_statements (depth : Nat) (L M : Language Token.Kind) :
    expressions depth * token .semicolon * L + M ≤ statements depth * L + M := by
  refine add_le_add (mul_le_mul_left ?_ L) le_rfl
  rw [statements_eq, add_assoc, add_assoc]
  exact le_self_add

/-- An expression that starts with a name is not taken for an assignment if no `=` follows. -/
theorem terminated_of_name {u : Token} (name : String) (loc : Location) (hu : u.kind ≠ .assign) (hL : Possible L)
    (hfirst : Avoids opensExpression M) :
    Outcome (statements depth * L + M) (·.elim M fun _ => L) (⟨.ident name, loc⟩ :: u :: ts)
      (terminated room (⟨.ident name, loc⟩ :: u :: ts)) := by
  have hoptional := terminated_optional room depth
  have hfollows := hoptional L M hL nofun hfirst
  have hprobe := hoptional.probe rfl rfl
  have hpossible : Possible (derivative (.ident name) (expressions depth * token .semicolon * L + M)) := by
    obtain ⟨w, hw⟩ := hL
    have hname := mem_words ((Expression.name depth name).looser (Nat.zero_le 5) (Nat.le_refl 5))
    have hmem := Language.append_mem_mul (Language.append_mem_mul hname (singleton_mem_token .semicolon)) hw
    exact ⟨.semicolon :: w, .inl hmem⟩
  refine (hfollows _).restrict_two (expressions_le_statements depth L M) ?_ hpossible ?_
  · rw [derivative_add, derivative_add, derivative_add, derivative_add, derivative_operand depth name hu, mul_assoc]
  -- The name is taken: it starts an expression, so the expression is not missing, and none is empty.
  · rintro (_ | a) hr
    · obtain ⟨w, hw⟩ := hpossible
      have hmem := hfollows.derivative_le hprobe.stays hr hw
      rw [hfirst (.ident name) rfl] at hmem
      exact hmem
    · exact absurd (hprobe.advances (nil_notMem_mul (nil_notMem_expressions depth)) _ _ a hr) (Nat.lt_irrefl _)

theorem leaving_follows (room depth : Nat) (hL : Possible L) :
    Follows (expressions depth * (token .semicolon * L) + token .semicolon * L) (leaving room)
      (·.elim M fun _ => L) := by
  have hend : Possible (token .semicolon * L) := (possible_token .semicolon).mul hL
  refine (expression_optional room depth _ _ hend (avoids_token_mul rfl L) (avoids_token_mul rfl L)).bind
    fun value => ?_
  have hvalue : value.elim (token .semicolon * L) (fun _ => token .semicolon * L) = token .semicolon * L := by
    cases value <;> rfl
  rw [hvalue]
  exact (expect_follows .semicolon .afterReturn hL).bind fun _ => .pure rfl

theorem assigned_follows (room depth : Nat) (target : String) (hL : Possible L) :
    Follows (expressions depth * (token .semicolon * L)) (assigned room target) (·.elim M fun _ => L) := by
  have hend : Possible (token .semicolon * L) := (possible_token .semicolon).mul hL
  refine ((expression_optional room depth).required rfl rfl (possible_expressions depth) .afterAssign hend
    (avoids_token_mul rfl L)).bind fun value => ?_
  exact (expect_follows .semicolon .afterAssignment hL).bind fun _ => .pure rfl

theorem statementWith_optional
    (hinner : ∀ s ∈ inner, Optional (statements (depth + 1)) (· == .kwElse) Token.Kind.opensStatement s) :
    Optional (statements depth) (· == .kwElse) Token.Kind.opensStatement (statementWith room inner) := by
  intro L M hL hfollow hfirst ts
  have hexpression : Avoids opensExpression M := fun k hk => hfirst k (by simp [Token.Kind.opensStatement, hk])
  have hpossible : Possible (statements depth * L + M) := by
    obtain ⟨w, hw⟩ := (possible_statements depth).mul hL
    exact ⟨w, .inl hw⟩
  cases ts with
  | nil => exact .ranOut
  | cons t ts =>
    rw [statementWith_cons]
    obtain ⟨kind, loc⟩ := t
    have hopens : kind.opensStatement = true → derivative kind (statements depth * L + M) =
        derivative kind (statements depth * L) := by
      intro h
      rw [derivative_add, hfirst kind h, add_zero]
    cases kind with
    | kwReturn =>
      refine .taken ?_
      rw [hopens rfl, derivative_return]
      exact leaving_follows room depth hL ts
    | kwIf =>
      refine .taken (.map ?_)
      rw [hopens rfl, derivative_if]
      exact conditional_follows hinner hL (hfollow .kwElse rfl) ts
    | kwFunc =>
      refine .fail _ hpossible ?_
      rw [hopens rfl, derivative_statements_mul_of_not depth rfl, derivative_expressions_mul depth rfl]
    | kwProc =>
      refine .fail _ hpossible ?_
      rw [hopens rfl, derivative_statements_mul_of_not depth rfl, derivative_expressions_mul depth rfl]
    | ident name =>
      cases ts with
      | nil => exact .ranOut
      | cons u ts =>
        by_cases hu : u.kind = .assign
        · dsimp only
          rw [if_pos hu]
          refine .taken (.taken ?_)
          rw [hopens rfl, hu, derivative_target]
          exact assigned_follows room depth name hL ts
        · dsimp only
          rw [if_neg hu]
          exact terminated_of_name name loc hu hL hexpression
    | _ =>
      refine (terminated_optional room depth L M hL nofun hexpression _).restrict
        (expressions_le_statements depth L M) ?_
      rw [derivative_add, derivative_add, derivative_statements_mul_of_not depth rfl, mul_assoc]

theorem statement_optional (room : Nat) : ∀ depth : Nat,
    Optional (statements depth) (· == .kwElse) Token.Kind.opensStatement (statement room) := by
  induction room with
  | zero => exact fun depth => statementWith_optional nofun
  | succ room ih =>
    intro depth
    refine statementWith_optional fun s hs => ?_
    cases hs
    exact ih (depth + 1)

/-! ## Programs -/

theorem names_follows (list : ParseError.NameList) (hL : Possible L)
    (hfollow : Avoids (fun kind => isName kind || kind == .comma) L) :
    Follows (series (oneOf isName) * L) (names list) fun _ => L := by
  intro ts
  have hnil : [] ∉ token .comma * oneOf isName := nil_notMem_mul (nil_notMem_oneOf _)
  have hitem : Optional (token .comma * oneOf isName) (fun _ => false) (· == .comma)
      (afterComma (identifier (.afterNameComma list))) :=
    afterComma_optional fun L hL _ => identifier_follows _ hL
  have hcomma : Avoids (· == .comma) L := fun kind hkind => hfollow kind (Bool.or_eq_true_iff.2 (.inr hkind))
  rw [series_mul]
  refine .look fun t us _ => ?_
  obtain ⟨kind, loc⟩ := t
  cases kind with
  | ident name =>
    refine .first (hfollow _ rfl) ?_
    rw [derivative_oneOf_mul_of rfl]
    exact (many_follows hitem hnil rfl rfl hL nofun hcomma us).bind fun more _ _ => .pure rfl
  | _ => exact .second (derivative_oneOf_mul_of_not rfl) (.pure rfl)

theorem localNames_follows (hL : Possible L) (hfollow : derivative .kwVar L = 0) :
    Follows (localLists * L) localNames fun _ => L := by
  rw [localLists, add_mul, one_mul, mul_assoc, mul_assoc, add_comm]
  refine (accept_follows .kwVar hfollow).bind fun b => ?_
  cases b with
  | true =>
    have hend : Possible (token .semicolon * L) := (possible_token .semicolon).mul hL
    refine (names_follows .locals hend (avoids_token_mul rfl L)).bind fun locals => ?_
    exact (expect_follows .semicolon .afterLocals hL).bind fun _ => .pure rfl
  | false => exact .pure rfl

theorem declaration_follows (kind : FunctionKind) (hL : Possible L) :
    Follows (oneOf isName * (token .lparen * (series (oneOf isName) * (token .rparen *
      (token .lbrace * (localLists * ((statements 0)∗ * (token .rbrace * L)))))))) (declaration kind) fun _ => L := by
  have hnil := nil_notMem_statements 0
  have hclose : Possible (token .rbrace * L) := (possible_token .rbrace).mul hL
  have hbody : Possible ((statements 0)∗ * (token .rbrace * L)) := hclose.kstar_mul _
  have helse : Avoids (· == .kwElse) ((statements 0)∗ * (token .rbrace * L)) :=
    (avoids_token_mul rfl L).kstar_mul (avoids_statements 0) hnil
  have hvar : derivative .kwVar ((statements 0)∗ * (token .rbrace * L)) = 0 := by
    rw [derivative_kstar_mul hnil, derivative_statements 0 rfl, zero_mul, derivative_token_mul, if_neg nofun, add_zero]
  have hlocals : Possible (localLists * ((statements 0)∗ * (token .rbrace * L))) :=
    Possible.mul ⟨[], .inl rfl⟩ hbody
  have hbrace := (possible_token .lbrace).mul hlocals
  have hparen := (possible_token .rparen).mul hbrace
  have hparams : Possible (series (oneOf isName) * _) := Possible.mul ⟨[], .inl rfl⟩ hparen
  refine (identifier_follows .afterFunctionKeyword ((possible_token .lparen).mul hparams)).bind fun name => ?_
  refine (expect_follows .lparen .afterFunctionName hparams).bind fun _ => ?_
  refine (names_follows .params hparen (avoids_token_mul rfl _)).bind fun params => ?_
  refine (expect_follows .rparen .afterParams hbrace).bind fun _ => ?_
  refine (expect_follows .lbrace .beforeBody hlocals).bind fun _ => ?_
  refine (localNames_follows hbody hvar).bind fun locals => ?_
  refine (many_follows (statement_optional maxNesting 0) hnil rfl rfl hclose helse (avoids_token_mul rfl L)).bind
    fun body => ?_
  exact (expect_follows .rbrace .afterBody hL).bind fun _ => .pure rfl

theorem function_optional : Optional declarations (fun _ => false) Token.Kind.declares function := by
  intro L M hL _ hfirst ts
  refine .look fun t us _ => ?_
  rw [declarations_eq]
  simp only [mul_assoc]
  obtain ⟨kind, loc⟩ := t
  cases kind with
  | kwFunc =>
    refine .first (hfirst _ rfl) (.map ?_)
    rw [derivative_oneOf_mul_of rfl]
    exact declaration_follows .func hL us
  | kwProc =>
    refine .first (hfirst _ rfl) (.map ?_)
    rw [derivative_oneOf_mul_of rfl]
    exact declaration_follows .proc hL us
  | _ => exact .second (derivative_oneOf_mul_of_not rfl) (.pure rfl)

theorem program_follows : Follows (declarations∗ * token .eof) program fun _ => token .eof := by
  refine (many_follows function_optional nil_notMem_declarations rfl rfl (possible_token .eof) nofun
    (avoids_token .eof rfl)).bind fun functions ts => .look fun t us _ => ?_
  by_cases heof : t.kind = .eof
  · rw [if_pos heof]
    exact .pure rfl
  · rw [if_neg heof]
    refine .fail _ (possible_token .eof) ?_
    rw [← mul_one (token .eof), derivative_token_mul, if_neg heof]

/-- Where a parse over a list of tokens fails, and not for a limit. -/
theorem program_failed {e : ParseError} (h : Program.ofTokens ts = .error (.failed e))
    (hcode : e.cause ≠ .codeTooDeep) (hexpression : e.cause ≠ .expressionTooDeep) :
    ∃ us t ts', ts = us ++ t :: ts' ∧ e.loc = t.loc ∧
      (∃ w, us.map (·.kind) ++ w ∈ words Derives * token .eof) ∧
      ∀ w, us.map (·.kind) ++ t.kind :: w ∉ words Derives * token .eof := by
  have hprogram : program ts = .error (.failed e) := by
    unfold Program.ofTokens StateT.run' at h
    cases hp : program ts with
    | ok r =>
      rw [hp] at h
      cases h
    | error stop =>
      rw [hp] at h
      cases h
      rfl
  have houtcome := program_follows ts
  rw [hprogram, ← derives_eq] at houtcome
  cases houtcome with
  | tooDeep he =>
    rcases he with he | he
    · exact absurd he hcode
    · exact absurd he hexpression
  | failed hts hloc hviable hdead => exact ⟨_, _, _, hts, hloc, hviable, hdead⟩

end LookM

namespace Lexer

/-- What there is to read in a text. Its end, if that is there, comes last. -/
theorem exists_tokens (l : Lexer) : ∃ (S : Scan) (s : Stream' (Except LexError Token)), S.Aligned l S.tokens ∧
    l.stream = S.tokens.map .ok ++ₛ s ∧ ∀ us t ts, S.tokens = us ++ t :: ts → ∀ u ∈ us, u.kind ≠ .eof := by
  rcases h : l.tokenize with ⟨e | ts, l'⟩
  · obtain ⟨before, hbefore, hs⟩ := tokenize_go_error h
    refine ⟨⟨before, some e⟩, _, aligned_of_fault hbefore hs, hs, ?_⟩
    rintro us t ts rfl u hu
    exact hbefore u (List.mem_append_left _ hu)
  · obtain ⟨before, last, hts, hlast, hbefore, hs⟩ := tokenize_go_ok h
    rw [List.reverse_nil, List.nil_append] at hts
    subst hts
    refine ⟨⟨before ++ [last], none⟩, _, aligned_of_tokenize h, hs, fun us t ts hts u hu => ?_⟩
    have hlasts := congrArg List.dropLast hts
    rw [List.dropLast_concat, List.dropLast_append_of_ne_nil (List.cons_ne_nil t ts)] at hlasts
    exact hbefore u (hlasts ▸ List.mem_append_left _ hu)

end Lexer

/-- A parse that fails, and not for a limit on nesting, fails at a token of the text: some program starts with the
tokens before it, and none goes on with that token, be it the end of the text. -/
theorem Program.parse_error_at_earliest {source : String} {e : ParseError} (h : Program.parse source = .error e)
    (hcause : (∃ wanted found, e.cause = .expected wanted found) ∨ ∃ found, e.cause = .nestedFunction found) :
    ∃ (before : List Token) (t : Token) (rest : Stream' (Except LexError Token)),
      (Lexer.ofString source).stream = (before ++ [t]).map .ok ++ₛ rest ∧ (∀ u ∈ before, u.kind ≠ .eof) ∧
      e.loc = t.loc ∧
      (∃ us p, Derives us p ∧ before.map (·.kind) <+: us.map (·.1)) ∧
      ∀ us p, Derives us p → ¬ (before ++ [t]).map (·.kind) <+: us.map (·.1) ++ [.eof] := by
  obtain ⟨S, s, haligned, hstream, heof⟩ := (Lexer.ofString source).exists_tokens
  have hfailed : Program.ofTokens S.tokens = .error (.failed e) := by
    rcases haligned.program.results with ⟨p, -, -, -, hx, -⟩ | ⟨e', -, hx, -⟩ | ⟨e', -, hx, hy⟩
    · cases hx.symm.trans h
    · cases hx.symm.trans h
      rcases hcause with ⟨_, _, hcause⟩ | ⟨_, hcause⟩ <;> cases hcause
    · cases hx.symm.trans h
      exact hy
  obtain ⟨before, t, ts, hts, hloc, ⟨w, hviable⟩, hdead⟩ := LookM.program_failed hfailed
    (by rcases hcause with ⟨_, _, hcause⟩ | ⟨_, hcause⟩ <;> simp [hcause])
    (by rcases hcause with ⟨_, _, hcause⟩ | ⟨_, hcause⟩ <;> simp [hcause])
  have hbefore := heof before t ts hts
  refine ⟨before, t, ts.map .ok ++ₛ s, ?_, hbefore, hloc, ?_, fun us p hderives hprefix => ?_⟩
  · rw [hstream, hts, ← Stream'.append_append_stream, ← List.map_append, List.append_assoc, List.singleton_append]
  · obtain ⟨_, ⟨us, p, hderives, rfl⟩, heq⟩ := mem_mul_token.1 hviable
    refine ⟨us, p, hderives, ?_⟩
    have hprefix : before.map (·.kind) <+: us.map (·.1) ++ [.eof] := ⟨w, heq⟩
    rcases List.prefix_concat_iff.1 hprefix with hall | hprefix
    · have hmem : Token.Kind.eof ∈ before.map (·.kind) := by
        rw [hall]
        exact List.mem_append_right _ List.mem_cons_self
      obtain ⟨u, hu, hkind⟩ := List.mem_map.1 hmem
      exact absurd hkind (hbefore u hu)
    · exact hprefix
  · obtain ⟨w, hw⟩ := hprefix
    rw [List.map_append, List.append_assoc] at hw
    exact hdead w (hw ▸ mem_mul_token.2 ⟨_, mem_words hderives, rfl⟩)

/-- The token behind a name is read to look for an assignment. If there is none, it is still to blame. -/
theorem Program.parse_blames_second_name :
    Program.parse "proc P() \x7b a b; \x7d" = .error ⟨.expected (.token .semicolon .afterExpr) (.ident "b"), ⟨1, 14⟩⟩ ∧
    ∃ (before : List Token) (t : Token) (rest : Stream' (Except LexError Token)),
      (Lexer.ofString "proc P() \x7b a b; \x7d").stream = (before ++ [t]).map .ok ++ₛ rest ∧
      (∀ u ∈ before, u.kind ≠ .eof) ∧ ⟨1, 14⟩ = t.loc ∧
      (∃ us p, Derives us p ∧ before.map (·.kind) <+: us.map (·.1)) ∧
      ∀ us p, Derives us p → ¬ (before ++ [t]).map (·.kind) <+: us.map (·.1) ++ [.eof] := by
  have hparse : Program.parse "proc P() \x7b a b; \x7d" =
      .error ⟨.expected (.token .semicolon .afterExpr) (.ident "b"), ⟨1, 14⟩⟩ := by decide +kernel
  exact ⟨hparse, Program.parse_error_at_earliest hparse (.inl ⟨_, _, rfl⟩)⟩

end Wordlang
