import Abacus.Proofs.Scanner.Position

/-! The loop that a request for a token runs. However a scanner has been used before, the states come
to a token or to the end of the source within four rounds and never fail, so that further rounds
would change nothing. -/
namespace Abacus.Scanner

/-- As a scanner is between two calls: about to look at the text, unless the end has been cut. -/
def Resting (s : Scanner) : Prop := s.state = none ∨ s.state = some .text

theorem pending_keep_ne_nil (s : Scanner) (kind : Kind) : (s.keep kind).2.pending ≠ [] := by
  simp [keep]

theorem State.ofChar?_ne_text (c : Char) : State.ofChar? c ≠ some .text := by
  unfold State.ofChar?
  repeat' split
  all_goals simp

theorem isSome_of_ofChar?_operator {c : Char} (h : State.ofChar? c = some .operator) :
    (Kind.ofChar? c).isSome := by
  unfold State.ofChar? at h
  grind

theorem isSpace_of_ofChar?_space {c : Char} (h : State.ofChar? c = some .space) :
    isSpace c = true := by
  unfold State.ofChar? at h
  grind

section Rounds

variable {s : Scanner} {q : State}

theorem run_of_ofChar? {c : Char} (hc : s.cursor.rest.head? = some c) (hq : State.ofChar? c = some q)
    (hspace : q ≠ .space) : ∃ s', q.run s = (.ok (some .text), s') ∧ s'.pending ≠ [] := by
  cases q with
  | text => exact absurd hq (State.ofChar?_ne_text c)
  | space => exact absurd rfl hspace
  | operator =>
    obtain ⟨single, hsingle⟩ := Option.isSome_iff_exists.mp (isSome_of_ofChar?_operator hq)
    have hnext : s.next = (some c, s.next.2) := by
      obtain ⟨rest, hrest⟩ := List.head?_eq_some_iff.mp hc
      simp [next, hrest]
    refine ⟨_, ?_, pending_keep_ne_nil (s.next.2.finishOperator c single).2
      (s.next.2.finishOperator c single).1⟩
    unfold State.run
    rw [hnext]
    simp only [hsingle]
  | _ => exact ⟨_, rfl, pending_keep_ne_nil _ _⟩

theorem settled_of_not_space (hpending : s.pending = []) (hstate : s.state = some .text)
    (hspace : ∀ c, s.cursor.rest.head? = some c → isSpace c = false) (n : Nat) :
    (s.advance (n + 2)).Settled ∧ (s.advance (n + 2)).Resting := by
  obtain ⟨undo, hrun⟩ := s.run_text_eq
  cases hc : s.cursor.rest.head? with
  | none =>
    rw [hc] at hrun
    rw [advance_last hpending hstate hrun (pending_keep_ne_nil _ _)]
    exact ⟨.inr rfl, .inl rfl⟩
  | some c =>
    rw [hc] at hrun
    cases hq : State.ofChar? c with
    | none =>
      have hcut : ({ s with undo := undo }.refuse .bad (unrecognized c)).pending ≠ [] :=
        pending_keep_ne_nil _ _
      simp only [hq] at hrun
      rw [advance_last hpending hstate hrun hcut]
      exact ⟨.inl hcut, .inr rfl⟩
    | some q =>
      simp only [hq] at hrun
      have hne : q ≠ .space := by
        rintro rfl
        cases (isSpace_of_ofChar?_space hq).symm.trans (hspace c hc)
      let s₁ : Scanner := { s with undo := undo, state := some q }
      obtain ⟨s', hrun', hcut⟩ := run_of_ofChar? (s := s₁) hc hq hne
      rw [advance_succ hpending hstate hrun, advance_last (s := s₁) hpending rfl hrun' hcut]
      exact ⟨.inl hcut, .inr rfl⟩

/-- The loop is over within four rounds, from wherever the cursor stands. -/
theorem Resting.settled (h : s.Resting) (n : Nat) :
    (s.advance (n + 4)).Settled ∧ (s.advance (n + 4)).Resting := by
  by_cases hsettled : s.Settled
  · rw [hsettled.advance_eq]
    exact ⟨hsettled, h⟩
  · have hpending : s.pending = [] := Decidable.not_not.mp fun hne => hsettled (.inl hne)
    have hstate : s.state = some .text := h.resolve_left fun hnone => hsettled (.inr hnone)
    by_cases hspace : ∀ c, s.cursor.rest.head? = some c → isSpace c = false
    · exact settled_of_not_space hpending hstate hspace (n + 2)
    · obtain ⟨c, hc⟩ := not_forall.mp hspace
      rw [Classical.not_imp, Bool.not_eq_false] at hc
      have hq : State.ofChar? c = some .space := by simp [State.ofChar?, hc.2]
      obtain ⟨undo, hrun⟩ := s.run_text_eq
      simp only [hc.1, hq] at hrun
      let s₁ : Scanner := { s with undo := undo, state := some .space }
      obtain ⟨behind, undo', htake⟩ := s₁.takeWhile_eq isSpace
      have hadvance :
          s.advance (n + 4) = { s₁.skipSpace with state := some .text }.advance (n + 2) := by
        rw [advance_succ hpending hstate hrun]
        exact advance_succ (s := s₁) hpending rfl rfl (n + 2)
      rw [hadvance]
      refine settled_of_not_space ?_ rfl ?_ n
      · show s₁.skipSpace.pending = []
        unfold skipSpace
        rw [htake]
        exact hpending
      · intro d hd
        have hcursor : s₁.skipSpace.cursor = s.cursor.skipWhile isSpace := by
          unfold skipSpace
          rw [htake]
          rfl
        rw [hcursor, Mark.rest_skipWhile] at hd
        have hnot := List.head?_dropWhile_not isSpace s.cursor.rest
        rw [hd] at hnot
        exact hnot

theorem advance_add_of_settled {k : Nat} (h : (s.advance k).Settled) (n : Nat) :
    s.advance (k + n) = s.advance k := by
  induction k generalizing s with
  | zero =>
    rw [Nat.zero_add]
    exact h.advance_eq n
  | succ k ih =>
    rw [Nat.add_right_comm]
    unfold advance at h ⊢
    split
    · split
      · rename_i q hpending hstate _ next s' hrun
        simp only [hpending, hstate, hrun] at h
        exact ih h
      · rfl
    · rfl

end Rounds

theorem Resting.nextToken {s : Scanner} (h : s.Resting) : s.nextToken.2.Resting := by
  have hrest := (h.settled 0).2
  unfold Scanner.nextToken
  dsimp only
  split
  · exact hrest
  · exact hrest

section State

variable (s : Scanner)

theorem state_next : s.next.2.state = s.state := by
  unfold next
  split <;> rfl

theorem state_retract : s.retract.state = s.state := by
  rw [retract_eq]

theorem state_takeIf (p : Char → Bool) : (s.takeIf p).2.state = s.state := by
  have hnext := s.state_next
  unfold takeIf
  split <;> rename_i heq <;> rw [heq] at hnext
  · split
    · exact hnext
    · exact (state_retract _).trans hnext
  · exact (state_retract _).trans hnext

theorem state_takeWhile (p : Char → Bool) : (s.takeWhile p).state = s.state := by
  obtain ⟨behind, undo, htake⟩ := s.takeWhile_eq p
  rw [htake]

theorem state_finishOperator (c : Char) (single : Kind) :
    (s.finishOperator c single).2.state = s.state := by
  have hnext := s.state_next
  unfold finishOperator
  split
  · split <;> rename_i heq <;> rw [heq] at hnext
    · split
      · exact hnext
      · exact (state_retract _).trans hnext
    · exact (state_retract _).trans hnext
  · rfl

theorem state_run (q : State) : (q.run s).2.state = s.state := by
  cases q with
  | text =>
    obtain ⟨undo, hrun⟩ := s.run_text_eq
    rw [hrun]
    split
    · rfl
    · split
      · rfl
      · exact state_next _
  | space => exact s.state_takeWhile _
  | leftParen => exact s.state_takeIf _
  | rightParen => exact s.state_takeIf _
  | leftBrace => exact s.state_takeIf _
  | rightBrace => exact s.state_takeIf _
  | number => exact s.state_takeWhile _
  | word => exact s.state_takeWhile _
  | operator =>
    have hnext := s.state_next
    unfold State.run
    dsimp only
    split <;> rename_i heq <;> rw [heq] at hnext
    · exact hnext
    · split
      · exact hnext
      · exact (state_finishOperator _ _ _).trans hnext

end State

theorem Resting.run {s : Scanner} (h : s.Resting) (call : Call) : (call.run s).2.Resting := by
  have hkeeps {s' : Scanner} (hs' : s'.state = s.state) : s'.Resting := by
    unfold Resting at *
    rwa [hs']
  cases call with
  | next => exact hkeeps s.state_next
  | peek => exact hkeeps ((state_retract _).trans s.state_next)
  | retract => exact hkeeps s.state_retract
  | takeIf p =>
    unfold Call.run
    dsimp only
    split
    · exact hkeeps s.state_next
    · exact hkeeps (s.state_takeIf _)
  | takeWhile p =>
    unfold Call.run
    dsimp only
    split
    · exact hkeeps ((state_next _).trans (s.state_takeWhile _))
    · exact hkeeps (s.state_takeWhile _)
  | restart => exact h
  | keep kind => exact h
  | refuse kind message => exact hkeeps s.state_next
  | token heard =>
    unfold Call.run
    dsimp only
    split
    · exact h.nextToken
    · exact h.nextToken
  | state q => exact hkeeps (s.state_run q)

theorem Resting.play {s : Scanner} (h : s.Resting) (calls : List Call) : (s.play calls).2.Resting := by
  induction calls generalizing s with
  | nil => exact h
  | cons call calls ih => exact ih (h.run call)

/-- However a scanner has been used, a request runs its states until a token is pending or the end of
the source has been cut, as often as that takes. -/
theorem advance_play_eq (file source : String) (calls : List Call) (n : Nat) :
    let s := ((ofSource file source).play calls).2
    s.advance (4 + n) = s.advance 4 ∧ (s.advance 4).Settled := by
  have hrest : (ofSource file source).Resting := .inr rfl
  have hsettled := ((hrest.play calls).settled 0).1
  exact ⟨advance_add_of_settled hsettled n, hsettled⟩

end Abacus.Scanner
