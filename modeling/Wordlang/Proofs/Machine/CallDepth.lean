import Wordlang.Proofs.Machine.Views

/-!
# The limit on nested calls only cuts runs off

Two machines with the same image and different limits go in step until a call finds no room under the lower limit.
So a run that the lower limit lets through is the same under the higher one, and a run that it cuts off is the
beginning of the other, with the same requests to the host so far.

Main statement: `Machine.limit_only_cuts_off`.
-/

namespace Wordlang

variable {η : Type}

namespace Machine

variable [Host η]

/-- A run leaves the requests in the record that were there at its start. -/
theorem run_records {m : Machine} {r : Except Fault (Option Word) × State (Recorded η)} {n pc : Nat}
    {s : State (Recorded η)} (h : m.run n pc s = some r) : s.host.calls <+: r.2.host.calls := by
  have hs : s = State.view (.behind s.host.calls) ⟨⟨s.host.host, []⟩, s.stack, s.frames⟩ := by
    simp [State.view, Recorded.behind]
  rw [hs, run_view (Recorded.view_behind _), Option.map_eq_some_iff] at h
  obtain ⟨start, -, rfl⟩ := h
  exact List.prefix_append _ _

/-! ## Two limits -/

variable (image : Image) {limit limit' : Nat}

omit [Host η] in
/-- There is room under the higher limit where there is under the lower one. -/
theorem enterFunction_of_le (hle : limit ≤ limit') (pc id argc : Nat) (s : State η) :
    (Machine.mk image limit).enterFunction pc id argc s = (Machine.mk image limit').enterFunction pc id argc s ∨
      (Machine.mk image limit).enterFunction pc id argc s = .error (.callDepthExceeded limit) s := by
  have hget : (get : ExecM η (State η)) s = .ok s s := rfl
  simp only [enterFunction, Bind.bind, EStateM.bind, hget]
  by_cases hroom : limit ≤ s.frames.size
  · right
    rw [if_pos hroom]
    rfl
  · left
    rw [if_neg hroom, if_neg (by omega)]

theorem exec_of_le (hle : limit ≤ limit') (pc : Nat) (i : Instruction) (s : State η) :
    (Machine.mk image limit).exec pc i s = (Machine.mk image limit').exec pc i s ∨
      (Machine.mk image limit).exec pc i s = .error (.callDepthExceeded limit) s := by
  cases i with
  | call id argc =>
    simp only [exec, Bind.bind, EStateM.bind]
    rcases enterFunction_of_le image hle pc id argc s with h | h
    · exact .inl (by rw [h])
    · exact .inr (by rw [h])
  | _ => exact .inl rfl

theorem step_of_le (hle : limit ≤ limit') (pc : Nat) (s : State η) :
    (Machine.mk image limit).step pc s = (Machine.mk image limit').step pc s ∨
      (Machine.mk image limit).step pc s = .halt (.error (.callDepthExceeded limit)) s := by
  unfold step
  cases hi : image.code[pc]? with
  | none => exact .inl rfl
  | some i =>
    rcases exec_of_le image hle pc i s with h | h
    · exact .inl (by simp only [h])
    · exact .inr (by simp only [h])

/-- The runs go in step to the end of the first, unless it is cut off. -/
theorem run_of_le (hle : limit ≤ limit') {r : Except Fault (Option Word) × State (Recorded η)} {n pc : Nat}
    {s : State (Recorded η)} (h : (Machine.mk image limit).run n pc s = some r) :
    (Machine.mk image limit').run n pc s = some r ∨ r.1 = .error (.callDepthExceeded limit) ∧
      ∀ n' r', (Machine.mk image limit').run n' pc s = some r' → r.2.host.calls <+: r'.2.host.calls := by
  induction n generalizing pc s with
  | zero => cases h
  | succ n ih =>
    rcases step_of_le image hle pc s with hstep | hstep
    · simp only [run] at h ⊢
      rw [hstep] at h
      cases hnext : (Machine.mk image limit').step pc s with
      | halt result s' =>
        simp only [hnext] at h ⊢
        exact .inl h
      | next pc' s' =>
        simp only [hnext] at h ⊢
        rcases ih h with hrun | ⟨hcut, hprefix⟩
        · exact .inl hrun
        · refine .inr ⟨hcut, fun n' r' hr' => ?_⟩
          cases n' with
          | zero => cases hr'
          | succ n' =>
            simp only [run, hnext] at hr'
            exact hprefix n' r' hr'
    · simp only [run, hstep] at h
      cases h
      exact .inr ⟨rfl, fun n' r' hr' => run_records hr'⟩

/-! ## Calls -/

/-- The end of a call whose run ends like this: a fault leaves an empty stack and no frames. -/
def finish : Except Fault (Option Word) × State η → Except Fault (Option Word) × State η
  | (.error fault, s) => (.error fault, ⟨s.host, #[], #[]⟩)
  | (.ok result, s) => (.ok result, s)

omit [Host η] in
theorem finish_eq (r : Except Fault (Option Word) × State η) : (finish r).1 = r.1 ∧ (finish r).2.host = r.2.host := by
  rcases r with ⟨fault | result, s⟩
  · exact ⟨rfl, rfl⟩
  · exact ⟨rfl, rfl⟩

/-- A call that passes the checks on its name and its arguments ends as its run does. -/
theorem call_eq_map_run {m : Machine} {name : String} {args : List Word} {id : Nat} {entry : Entry}
    (hfind : m.image.find? name = some (id, entry)) (hargs : args.length = entry.params) (n : Nat) (s : State η) :
    m.call n name args s =
      (m.run n entry.address ⟨s.host, args.toArray, #[.ofEntry entry none 0]⟩).map finish := by
  simp only [call, hfind, if_neg (not_not_intro hargs)]
  cases m.run n entry.address ⟨s.host, args.toArray, #[.ofEntry entry none 0]⟩ with
  | none => rfl
  | some r => rcases r with ⟨fault | result, s⟩ <;> rfl

theorem call_of_le (hle : limit ≤ limit') {r : Except Fault (Option Word) × State (Recorded η)} {n : Nat}
    {name : String} {args : List Word} {s : State (Recorded η)}
    (h : (Machine.mk image limit).call n name args s = some r) :
    (Machine.mk image limit').call n name args s = some r ∨ r.1 = .error (.callDepthExceeded limit) ∧
      ∀ n' r', (Machine.mk image limit').call n' name args s = some r' → r.2.host.calls <+: r'.2.host.calls := by
  cases hfind : image.find? name with
  | none =>
    simp only [call, hfind] at h ⊢
    exact .inl h
  | some found =>
    obtain ⟨id, entry⟩ := found
    by_cases hargs : args.length = entry.params
    · have hcall : ∀ limit n, (Machine.mk image limit).call n name args s = _ :=
        fun limit n => call_eq_map_run (m := ⟨image, limit⟩) hfind hargs n s
      simp only [hcall, Option.map_eq_some_iff] at h ⊢
      obtain ⟨end₁, hrun, rfl⟩ := h
      rcases run_of_le image hle hrun with hrun' | ⟨hcut, hprefix⟩
      · exact .inl ⟨end₁, hrun', rfl⟩
      · refine .inr ⟨(finish_eq end₁).1.trans hcut, ?_⟩
        rintro n' r' ⟨end₂, hrun₂, rfl⟩
        rw [(finish_eq end₁).2, (finish_eq end₂).2]
        exact hprefix n' end₂ hrun₂
    · simp only [call, hfind, if_pos hargs] at h ⊢
      exact .inl h

theorem ends_iff {m : Machine} {name : String} {args : List Word} {s : State η}
    {r : Except Fault (Option Word) × State η} : m.Ends name args s r ↔ ∃ n, m.call n name args s = some r := by
  constructor
  · rintro ⟨bound, h⟩
    exact ⟨bound, by rw [h, if_neg (Nat.lt_irrefl _)]⟩
  · rintro ⟨n, h⟩
    exact ends_of_call h

theorem Ends.unique {m : Machine} {name : String} {args : List Word} {s : State η}
    {r r' : Except Fault (Option Word) × State η} (h : m.Ends name args s r) (h' : m.Ends name args s r') : r = r' := by
  obtain ⟨n, hn⟩ := ends_iff.1 h'
  obtain ⟨bound, hb⟩ := h
  rw [hb] at hn
  by_cases hlt : n < bound
  · simp [hlt] at hn
  · simpa [hlt] using hn

/-- A call that ends otherwise than at the limit ends in the same way under each higher limit: with the same result and
the same bindings, globals included, after the same requests. A call that the limit cuts off has made the first of the
requests that it makes under a higher limit, if it ends there. -/
theorem limit_only_cuts_off (hle : limit ≤ limit') {σ : Type} {name : String} {args : List Word}
    {s : State (Recorded (Bindings σ))} {r : Except Fault (Option Word) × State (Recorded (Bindings σ))}
    (h : (Machine.mk image limit).Ends name args s r) :
    ((∀ n, r.1 ≠ .error (.callDepthExceeded n)) → (Machine.mk image limit').Ends name args s r) ∧
    ((∃ n, r.1 = .error (.callDepthExceeded n)) → ∀ r', (Machine.mk image limit').Ends name args s r' →
      r.2.host.calls <+: r'.2.host.calls) := by
  obtain ⟨n, hn⟩ := ends_iff.1 h
  rcases call_of_le image hle hn with hcall | ⟨hcut, hprefix⟩
  · have hends : (Machine.mk image limit').Ends name args s r := ends_of_call hcall
    refine ⟨fun _ => hends, fun _ r' hr' => ?_⟩
    exact hends.unique hr' ▸ List.prefix_refl _
  · refine ⟨fun hne => absurd hcut (hne limit), fun _ r' hr' => ?_⟩
    obtain ⟨n', hn'⟩ := ends_iff.1 hr'
    exact hprefix n' r' hn'

/-- Each function notes a word; the first then jumps back to call the second, as no compiled function does. -/
def jumpingBack : Image :=
  ⟨#[.jump 3, .call 1 0, .retValue, .push 7, .callExternal 0 1 .proc, .jump 1,
    .push 8, .callExternal 0 1 .proc, .push 0, .retValue],
    #[⟨"Outer", 0, 0, .func, 0⟩, ⟨"Inner", 0, 0, .func, 6⟩]⟩

/-- What the notes leave of the bindings. -/
def noted (words : List Word) : State (Recorded (Bindings (List Word))) :=
  ⟨⟨{ noting with world := words }, words.map fun word => (0, [word])⟩, #[], #[]⟩

/-- The limit 0 lets the call itself through and the limit 1 no other. -/
theorem jumpingBack_is_cut_off :
    (Machine.mk jumpingBack 0).Ends "Inner" [] (noted []) (.ok (some 0), noted [8]) ∧
    (Machine.mk jumpingBack 2).Ends "Inner" [] (noted []) (.ok (some 0), noted [8]) ∧
    (Machine.mk jumpingBack 1).Ends "Outer" [] (noted []) (.error (.callDepthExceeded 1), noted [7]) ∧
    (Machine.mk jumpingBack 2).Ends "Outer" [] (noted []) (.ok (some 0), noted [7, 8]) ∧
    (noted [7]).host.calls <+: (noted [7, 8]).host.calls := by
  have hinner : jumpingBack.find? "Inner" = some (1, ⟨"Inner", 0, 0, .func, 6⟩) := by decide +kernel
  have houter : jumpingBack.find? "Outer" = some (0, ⟨"Outer", 0, 0, .func, 0⟩) := by decide +kernel
  have hlow : (Machine.mk jumpingBack 0).Ends "Inner" [] (noted []) (.ok (some 0), noted [8]) :=
    ends_of_call (n := 4) ((call_eq_map_run hinner rfl 4 (noted [])).trans rfl)
  have hcut : (Machine.mk jumpingBack 1).Ends "Outer" [] (noted []) (.error (.callDepthExceeded 1), noted [7]) :=
    ends_of_call (n := 5) ((call_eq_map_run houter rfl 5 (noted [])).trans rfl)
  have hhigh : (Machine.mk jumpingBack 2).Ends "Outer" [] (noted []) (.ok (some 0), noted [7, 8]) :=
    ends_of_call (n := 10) ((call_eq_map_run houter rfl 10 (noted [])).trans rfl)
  refine ⟨hlow, (limit_only_cuts_off jumpingBack (by decide) hlow).1 (by simp), hcut, hhigh, ?_⟩
  exact (limit_only_cuts_off jumpingBack (by decide) hcut).2 ⟨1, rfl⟩ _ hhigh

end Machine

end Wordlang
