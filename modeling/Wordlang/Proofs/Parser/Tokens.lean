import Wordlang.Parser.Basic
import Wordlang.Proofs.Parser.Grammar
import Mathlib.Data.Stream.Init
import Mathlib.Algebra.BigOperators.Group.List.Basic

/-!
# What a lexer has still to deliver

A lexer stands for the infinite sequence of the tokens and errors that it delivers one after the other. To
take a token drops the head of the sequence, to hand one back puts it in front. Lexers with the same
sequence differ only in where their tokens lie.
-/

namespace Wordlang

namespace Lexer

/-- All that the lexer will deliver. The end of the text is delivered again and again. -/
def stream (l : Lexer) : Stream' (Except LexError Token) := Stream'.corec (·.next.1) (·.next.2) l

theorem stream_eq (l : Lexer) : l.stream = Stream'.cons l.next.1 l.next.2.stream := Stream'.corec_eq _ _ l

/-- The lexer delivers a token, and then what `l'` delivers. -/
def Delivers (l : Lexer) (t : Token) (l' : Lexer) : Prop := l.stream = Stream'.cons (.ok t) l'.stream

/-- The lexer delivers tokens of the given kinds, and then what `l'` delivers. -/
def Reads (l : Lexer) (us : List Placed) (l' : Lexer) : Prop :=
  ∃ ts : List Token, ts.map (·.kind) = us.map (·.1) ∧ l.stream = ts.map .ok ++ₛ l'.stream

theorem delivers_of_next {l l' : Lexer} {t : Token} (h : l.next = (.ok t, l')) : l.Delivers t l' := by
  rw [Delivers, stream_eq, h]

theorem delivers_revert (l : Lexer) (t : Token) : (l.revert t).Delivers t l := delivers_of_next rfl

variable {l l₁ l' : Lexer} {t : Token} {us vs : List Placed}

namespace Delivers

theorem next (h : l.Delivers t l') : ∃ l₁, l.next = (.ok t, l₁) ∧ l₁.stream = l'.stream := by
  rw [Delivers, stream_eq] at h
  obtain ⟨ht, hs⟩ := Stream'.cons_injective2 h
  exact ⟨l.next.2, by rw [← ht], hs⟩

theorem congr_left (h : l.Delivers t l') (hs : l₁.stream = l.stream) : l₁.Delivers t l' := hs.trans h

theorem inj {t' : Token} {l₂ : Lexer} (h : l.Delivers t l') (h' : l.Delivers t' l₂) :
    t = t' ∧ l'.stream = l₂.stream := by
  obtain ⟨ht, hs⟩ := Stream'.cons_injective2 (h.symm.trans h')
  exact ⟨by simpa using ht, hs⟩

/-- To hand back what was just taken changes nothing. -/
theorem stream_revert (h : l.Delivers t l') : (l'.revert t).stream = l.stream :=
  (delivers_revert l' t).trans h.symm

end Delivers

namespace Reads

theorem nil_iff : l.Reads [] l' ↔ l.stream = l'.stream := by
  constructor
  · rintro ⟨ts, hk, hs⟩
    rw [List.map_nil, List.map_eq_nil_iff] at hk
    subst hk
    exact hs
  · intro h
    exact ⟨[], rfl, h⟩

theorem append (h : l.Reads us l₁) (h' : l₁.Reads vs l') : l.Reads (us ++ vs) l' := by
  obtain ⟨ts, hk, hs⟩ := h
  obtain ⟨ts', hk', hs'⟩ := h'
  refine ⟨ts ++ ts', by simp [hk, hk'], ?_⟩
  rw [hs, hs', List.map_append, Stream'.append_append_stream]

theorem single {kind : Token.Kind} (depth : Nat) (h : l.Delivers t l') (ht : t.kind = kind) :
    l.Reads [(kind, depth)] l' := ⟨[t], by simp [ht], h⟩

theorem cons {kind : Token.Kind} {depth : Nat} (h : l.Delivers t l₁) (ht : t.kind = kind)
    (h' : l₁.Reads us l') : l.Reads ((kind, depth) :: us) l' := (single depth h ht).append h'

theorem congr (h : l.Reads us l₁) (h' : l₁.stream = l'.stream) : l.Reads us l' := by
  have := h.append (nil_iff.2 h')
  rwa [List.append_nil] at this

theorem congr_left (h : l.Reads us l') (hs : l₁.stream = l.stream) : l₁.Reads us l' :=
  (nil_iff.2 hs).append h

/-- The first token, and a lexer behind it. -/
theorem uncons {u : Placed} (h : l.Reads (u :: us) l') :
    ∃ t l₁, t.kind = u.1 ∧ l.Delivers t l₁ ∧ l₁.Reads us l' := by
  obtain ⟨ts, hk, hs⟩ := h
  obtain ⟨t, ts, rfl, ht, hts⟩ := List.map_eq_cons_iff.1 hk
  rw [List.map_cons, Stream'.cons_append_stream, stream_eq] at hs
  obtain ⟨hn, htail⟩ := Stream'.cons_injective2 hs
  refine ⟨t, l.next.2, ht, ?_, ts, hts, htail⟩
  rw [Delivers, stream_eq, hn]

theorem split (h : l.Reads (us ++ vs) l') : ∃ l₁, l.Reads us l₁ ∧ l₁.Reads vs l' := by
  induction us generalizing l with
  | nil => exact ⟨l, nil_iff.2 rfl, h⟩
  | cons u us ih =>
    obtain ⟨t, l₁, ht, hd, h⟩ := h.uncons
    obtain ⟨l₂, h₁, h₂⟩ := ih h
    exact ⟨l₂, cons hd ht h₁, h₂⟩

/-- There are at most as many tokens before the end of the text as the size of the lexer says. -/
theorem length_le_size (h : l.Reads us l') (hne : ∀ u ∈ us, u.1 ≠ .eof) : us.length ≤ l.size := by
  induction us generalizing l with
  | nil => exact Nat.zero_le _
  | cons u us ih =>
    obtain ⟨t, l₁, ht, hd, h⟩ := h.uncons
    obtain ⟨l₂, hnext, hs⟩ := hd.next
    have hle := ih (h.congr_left hs) fun v hv => hne v (List.mem_cons_of_mem u hv)
    have hlt := Lexer.next_size_lt hnext (ht ▸ hne u List.mem_cons_self)
    rw [List.length_cons]
    omega

end Reads

end Lexer

/-! ## Parsers

For each parser, one lemma says what a successful run has read, and one that it succeeds where the tokens
are the right ones. -/

namespace ParseM

open Lexer

variable {α β : Type} {l l' l₁ : Lexer} {t : Token} {kind : Token.Kind} {place : ParseError.Place}

theorem bind_ok {x : ParseM α} {f : α → ParseM β} {b : β} (h : (x >>= f) l = .ok (b, l')) :
    ∃ a l₁, x l = .ok (a, l₁) ∧ f a l₁ = .ok (b, l') := by
  cases hx : x l with
  | error e =>
    have e' : (x >>= f) l = .error e := by simp only [bind, StateT.bind, hx, Except.bind]
    rw [e'] at h
    cases h
  | ok r =>
    obtain ⟨a, l₁⟩ := r
    have e' : (x >>= f) l = f a l₁ := by simp only [bind, StateT.bind, hx, Except.bind]
    exact ⟨a, l₁, rfl, e' ▸ h⟩

theorem bind_run {x : ParseM α} {f : α → ParseM β} {a : α} (h : x l = .ok (a, l₁)) : (x >>= f) l = f a l₁ := by
  simp only [bind, StateT.bind, h, Except.bind]

theorem bind_error {x : ParseM α} {f : α → ParseM β} {e : ParseError} (h : x l = .error e) :
    (x >>= f) l = .error e := by
  simp only [bind, StateT.bind, h, Except.bind]

theorem map_ok {x : ParseM α} {f : α → β} {b : β} (h : (f <$> x) l = .ok (b, l')) :
    ∃ a, x l = .ok (a, l') ∧ b = f a := by
  rw [← bind_pure_comp] at h
  obtain ⟨a, l₁, hx, h⟩ := bind_ok h
  cases h
  exact ⟨a, hx, rfl⟩

theorem map_run {x : ParseM α} {f : α → β} {a : α} (h : x l = .ok (a, l')) : (f <$> x) l = .ok (f a, l') := by
  rw [← bind_pure_comp, bind_run h]
  rfl

theorem map_congr {x y : ParseM α} (f : α → β) (h : x l = y l') : (f <$> x) l = (f <$> y) l' := by
  rw [← bind_pure_comp, ← bind_pure_comp]
  simp only [bind, StateT.bind, h]

theorem next_ok (h : next l = .ok (t, l')) : l.Delivers t l' := by
  unfold next at h
  split at h
  · rename_i hn
    cases h
    exact delivers_of_next hn
  · cases h

theorem next_run (h : l.Delivers t l') : ∃ l₁, next l = .ok (t, l₁) ∧ l₁.stream = l'.stream := by
  obtain ⟨l₁, hn, hs⟩ := h.next
  exact ⟨l₁, by simp only [next, hn], hs⟩

theorem peek_ok (h : peek l = .ok (t, l')) : (∃ l₁, l.Delivers t l₁) ∧ l'.stream = l.stream := by
  obtain ⟨t', l₁, hn, h⟩ := bind_ok h
  cases h
  exact ⟨⟨l₁, next_ok hn⟩, (next_ok hn).stream_revert⟩

theorem peek_run (h : l.Delivers t l') : ∃ l₁, peek l = .ok (t, l₁) ∧ l₁.stream = l.stream := by
  obtain ⟨l₁, hn, hs⟩ := next_run h
  exact ⟨l₁.revert t, bind_run hn, (next_ok hn).stream_revert⟩

theorem accept_true (h : accept kind l = .ok (true, l')) : ∃ t, t.kind = kind ∧ l.Delivers t l' := by
  obtain ⟨t, l₁, hn, h⟩ := bind_ok h
  split at h
  · rename_i ht
    cases h
    exact ⟨t, ht, next_ok hn⟩
  · cases h

theorem accept_false (h : accept kind l = .ok (false, l')) :
    (∃ t l₁, t.kind ≠ kind ∧ l.Delivers t l₁) ∧ l'.stream = l.stream := by
  obtain ⟨t, l₁, hn, h⟩ := bind_ok h
  split at h
  · cases h
  · rename_i ht
    cases h
    exact ⟨⟨t, l₁, ht, next_ok hn⟩, (next_ok hn).stream_revert⟩

theorem accept_run (h : l.Delivers t l') (ht : t.kind = kind) :
    ∃ l₁, accept kind l = .ok (true, l₁) ∧ l₁.stream = l'.stream := by
  obtain ⟨l₁, hn, hs⟩ := next_run h
  refine ⟨l₁, ?_, hs⟩
  unfold accept
  rw [bind_run hn, if_pos ht]
  rfl

theorem accept_run_not (h : l.Delivers t l') (ht : t.kind ≠ kind) :
    ∃ l₁, accept kind l = .ok (false, l₁) ∧ l₁.stream = l.stream := by
  obtain ⟨l₁, hn, hs⟩ := next_run h
  refine ⟨l₁.revert t, ?_, (next_ok hn).stream_revert⟩
  unfold accept
  rw [bind_run hn, if_neg ht]
  rfl

theorem expect_ok (h : expect kind place l = .ok (t, l')) : t.kind = kind ∧ l.Delivers t l' := by
  obtain ⟨t', l₁, hn, h⟩ := bind_ok h
  split at h
  · rename_i ht
    cases h
    exact ⟨ht, next_ok hn⟩
  · cases h

theorem expect_run (h : l.Delivers t l') (ht : t.kind = kind) (place : ParseError.Place) :
    ∃ l₁, expect kind place l = .ok (t, l₁) ∧ l₁.stream = l'.stream := by
  obtain ⟨l₁, hn, hs⟩ := next_run h
  refine ⟨l₁, ?_, hs⟩
  unfold expect
  rw [bind_run hn, if_pos ht]
  rfl

theorem identifier_ok {name : String} (h : identifier place l = .ok (name, l')) :
    ∃ t, t.kind = .ident name ∧ l.Delivers t l' := by
  obtain ⟨t, l₁, hn, h⟩ := bind_ok h
  cases hk : t.kind with
  | ident x =>
    simp only [hk] at h
    cases h
    exact ⟨t, hk, next_ok hn⟩
  | _ =>
    simp only [hk] at h
    cases h

theorem identifier_run {name : String} (h : l.Delivers t l') (ht : t.kind = .ident name)
    (place : ParseError.Place) : ∃ l₁, identifier place l = .ok (name, l₁) ∧ l₁.stream = l'.stream := by
  obtain ⟨l₁, hn, hs⟩ := next_run h
  refine ⟨l₁, ?_, hs⟩
  unfold identifier
  rw [bind_run hn, ht]
  rfl

theorem required_ok {item : ParseM (Option α)} {a : α} (h : required place item l = .ok (a, l')) :
    item l = .ok (some a, l') := by
  obtain ⟨r, l₁, hi, h⟩ := bind_ok h
  cases r with
  | some a' => cases h; exact hi
  | none =>
    obtain ⟨t, l₂, -, h⟩ := bind_ok h
    cases h

theorem required_run {item : ParseM (Option α)} {a : α} (h : item l = .ok (some a, l')) :
    required place item l = .ok (a, l') := bind_run h

theorem enter_ok {inner : Option α} {loc : Location} {a : α} (h : enter inner loc l = .ok (a, l')) :
    inner = some a ∧ l' = l := by
  cases inner with
  | some b => cases h; exact ⟨rfl, rfl⟩
  | none => cases h

/-! ### Repetition -/

/-- All items of a repetition, each with the tokens that it was read from. -/
theorem many_ok {item : ParseM (Option α)} {P : List Placed → α → Prop}
    (hsome : ∀ l l' a, item l = .ok (some a, l') → ∃ us, l.Reads us l' ∧ P us a)
    (hnone : ∀ l l', item l = .ok (none, l') → l'.stream = l.stream) {as : List α}
    (h : many item l = .ok (as, l')) :
    ∃ parts : List (List Placed × α), as = parts.map (·.2) ∧ l.Reads (parts.map (·.1)).flatten l' ∧
      ∀ part ∈ parts, P part.1 part.2 := by
  -- The loop keeps its items in reverse, on top of those it has found before.
  have loop : ∀ (n : Nat) (found items : List α) (l l' : Lexer),
      upTo (fun items => return (← item).map (· :: items)) n found l = .ok (items, l') →
      ∃ parts : List (List Placed × α), items = (parts.map (·.2)).reverse ++ found ∧
        l.Reads (parts.map (·.1)).flatten l' ∧ ∀ part ∈ parts, P part.1 part.2 := by
    intro n
    induction n with
    | zero =>
      intro found items l l' h
      cases h
      exact ⟨[], rfl, Reads.nil_iff.2 rfl, by simp⟩
    | succ n ih =>
      intro found items l l' h
      obtain ⟨r, l₁, hstep, h⟩ := bind_ok h
      obtain ⟨r', l₂, hi, hstep⟩ := bind_ok hstep
      cases r' with
      | none =>
        cases hstep
        cases h
        exact ⟨[], rfl, Reads.nil_iff.2 (hnone _ _ hi).symm, by simp⟩
      | some a =>
        cases hstep
        obtain ⟨us, hus, hP⟩ := hsome _ _ _ hi
        obtain ⟨parts, rfl, hr, hparts⟩ := ih _ _ _ _ h
        refine ⟨(us, a) :: parts, by simp, by simpa using hus.append hr, ?_⟩
        rintro part (_ | ⟨_, hpart⟩)
        · exact hP
        · exact hparts part hpart
  obtain ⟨l₀, l₁, hget, h⟩ := bind_ok h
  cases hget
  obtain ⟨items, l₂, hloop, h⟩ := bind_ok h
  cases h
  obtain ⟨parts, rfl, hr, hparts⟩ := loop _ _ _ _ _ hloop
  exact ⟨parts, by simp, hr, hparts⟩

section

variable {item : ParseM (Option α)} {Q : Lexer → Prop} {parts : List (List Placed × α)}

/-- The loop takes all items that come one after the other. `Q` tells what may follow an item. -/
theorem upTo_items
    (hitem : ∀ part ∈ parts, ∀ l l₁, l.Reads part.1 l₁ → Q l₁ →
      ∃ l', item l = .ok (some part.2, l') ∧ l'.stream = l₁.stream)
    (hQ : ∀ part ∈ parts, ∀ l l₁, l.Reads part.1 l₁ → Q l) (hend : ∀ l, l.stream = l₁.stream → Q l) :
    ∀ (n : Nat) (found : List α) (l : Lexer), l.Reads (parts.map (·.1)).flatten l₁ →
      ∃ l', upTo (fun items => return (← item).map (· :: items)) (n + parts.length) found l =
        upTo (fun items => return (← item).map (· :: items)) n ((parts.map (·.2)).reverse ++ found) l' ∧
        l'.stream = l₁.stream := by
  induction parts with
  | nil =>
    intro n found l hr
    exact ⟨l, rfl, Reads.nil_iff.1 hr⟩
  | cons part parts ih =>
    intro n found l hr
    rw [List.map_cons, List.flatten_cons] at hr
    obtain ⟨l₂, h₁, h₂⟩ := hr.split
    have hQ₂ : Q l₂ := by
      cases parts with
      | nil => exact hend l₂ (Reads.nil_iff.1 h₂)
      | cons next parts =>
        rw [List.map_cons, List.flatten_cons] at h₂
        obtain ⟨l₃, h₃, -⟩ := h₂.split
        exact hQ next (by simp) l₂ l₃ h₃
    obtain ⟨l₃, hi, hs⟩ := hitem part List.mem_cons_self l l₂ h₁ hQ₂
    obtain ⟨l', hloop, hs'⟩ := ih (fun p hp => hitem p (List.mem_cons_of_mem _ hp))
      (fun p hp => hQ p (List.mem_cons_of_mem _ hp)) n (part.2 :: found) l₃ (h₂.congr_left hs)
    refine ⟨l', ?_, hs'⟩
    have hlen : n + (part :: parts).length = n + parts.length + 1 := rfl
    rw [hlen]
    conv => lhs; unfold upTo
    rw [bind_run (bind_run hi)]
    simpa using hloop

/-- Items that take at least one token each are no more than the size of the lexer says. -/
theorem length_items_le (hne : ∀ part ∈ parts, part.1 ≠ [] ∧ ∀ u ∈ part.1, u.1 ≠ .eof)
    (h : l.Reads (parts.map (·.1)).flatten l₁) : parts.length ≤ l.size := by
  have hparts : ∀ n ∈ (parts.map (·.1)).map List.length, 1 ≤ n := by
    intro n hn
    obtain ⟨us, hus, rfl⟩ := List.mem_map.1 hn
    obtain ⟨part, hp, rfl⟩ := List.mem_map.1 hus
    exact List.length_pos_iff.2 (hne part hp).1
  have htokens : ∀ u ∈ (parts.map (·.1)).flatten, u.1 ≠ .eof := by
    intro u hu
    obtain ⟨us, hus, hu⟩ := List.mem_flatten.1 hu
    obtain ⟨part, hp, rfl⟩ := List.mem_map.1 hus
    exact (hne part hp).2 u hu
  calc
    parts.length = ((parts.map (·.1)).map List.length).length := by simp
    _ ≤ ((parts.map (·.1)).map List.length).sum := List.length_le_sum_of_one_le _ hparts
    _ = (parts.map (·.1)).flatten.length := List.length_flatten.symm
    _ ≤ l.size := h.length_le_size htokens

/-- A repetition reads the items that come one after the other; what it does then is up to one more item. -/
theorem many_items
    (hitem : ∀ part ∈ parts, ∀ l l₁, l.Reads part.1 l₁ → Q l₁ →
      ∃ l', item l = .ok (some part.2, l') ∧ l'.stream = l₁.stream)
    (hQ : ∀ part ∈ parts, ∀ l l₁, l.Reads part.1 l₁ → Q l)
    (hne : ∀ part ∈ parts, part.1 ≠ [] ∧ ∀ u ∈ part.1, u.1 ≠ .eof) (hend : ∀ l, l.stream = l₁.stream → Q l)
    (h : l.Reads (parts.map (·.1)).flatten l₁) :
    ∃ l₂, l₂.stream = l₁.stream ∧
      (∀ l', item l₂ = .ok (none, l') → many item l = .ok (parts.map (·.2), l')) ∧
      ∀ e, item l₂ = .error e → many item l = .error e := by
  have hlen := length_items_le hne h
  obtain ⟨l₂, hloop, hs⟩ := upTo_items hitem hQ hend (l.size - parts.length + 1) [] l h
  have hn : l.size - parts.length + 1 + parts.length = l.size + 1 := by omega
  rw [hn, List.append_nil] at hloop
  have hget : (get : ParseM Lexer) l = .ok (l, l) := rfl
  refine ⟨l₂, hs, fun l' hi => ?_, fun e hi => ?_⟩
  · have hstop := hloop.trans (bind_run (bind_run hi))
    unfold many
    rw [bind_run hget, bind_run hstop, List.reverse_reverse]
    rfl
  · have hstop := hloop.trans (bind_error (bind_error hi))
    unfold many
    rw [bind_run hget, bind_error hstop]

/-- A repetition reads all items that come one after the other. -/
theorem many_run
    (hitem : ∀ part ∈ parts, ∀ l l₁, l.Reads part.1 l₁ → Q l₁ →
      ∃ l', item l = .ok (some part.2, l') ∧ l'.stream = l₁.stream)
    (hQ : ∀ part ∈ parts, ∀ l l₁, l.Reads part.1 l₁ → Q l)
    (hne : ∀ part ∈ parts, part.1 ≠ [] ∧ ∀ u ∈ part.1, u.1 ≠ .eof)
    (hend : ∀ l, l.stream = l₁.stream → Q l ∧ ∃ l', item l = .ok (none, l') ∧ l'.stream = l.stream)
    (h : l.Reads (parts.map (·.1)).flatten l₁) :
    ∃ l', many item l = .ok (parts.map (·.2), l') ∧ l'.stream = l₁.stream := by
  obtain ⟨l₂, hs, hnone, -⟩ := many_items hitem hQ hne (fun l hl => (hend l hl).1) h
  obtain ⟨-, l', hi, hs'⟩ := hend l₂ hs
  exact ⟨l', hnone l' hi, hs'.trans hs⟩

end

end ParseM

end Wordlang
