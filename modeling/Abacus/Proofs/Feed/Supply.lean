import Abacus.Proofs.Scanner.Cuts

/-! What a parser may rely on, wherever its tokens come from: they arrive in the order of the text,
its end repeats, and no complaint of the lexer is lost on the way. -/
namespace Abacus

def complaintsOf (ts : List Token) : List Diagnostic := ts.flatMap (·.complaints.toList)

@[simp] theorem complaintsOf_nil : complaintsOf [] = [] := rfl

@[simp] theorem complaintsOf_cons (t : Token) (ts : List Token) :
    complaintsOf (t :: ts) = t.complaints.toList ++ complaintsOf ts := rfl

namespace Scanner.Cuts

variable {file : String} {ts : List Token} {e : Token}

theorem errors_collect {m : Mark} (h : Cuts file m ts e) {s : Scanner} (hs : Ready file m s)
    {n : Nat} (hn : ts.length < n) (done : List Token) :
    (s.collect n done).2.errors.toList = s.errors.toList ++ complaintsOf ts := by
  induction h generalizing s n done with
  | done h =>
    obtain ⟨s', hnext, herrors, -⟩ := hs.nextToken_nil h
    obtain ⟨n, rfl⟩ := Nat.exists_eq_succ_of_ne_zero (Nat.ne_of_gt hn)
    unfold collect
    rw [hnext]
    simp [Token.empty, herrors]
  | @token m c rest ts e h later ih =>
    obtain ⟨htoken, hready, herrors⟩ := hs.nextToken_cons h
    obtain ⟨n, rfl⟩ := Nat.exists_eq_succ_of_ne_zero (Nat.ne_of_gt (Nat.zero_lt_of_lt hn))
    have hkind : s.nextToken.1.kind ≠ .eof := htoken ▸ foremost_ne_eof c rest
    unfold collect
    simp only [hkind, if_false]
    rw [ih hready (Nat.lt_of_succ_lt_succ hn), herrors, htoken]
    simp

theorem errors_scanSource {source : String} (h : Cuts file ⟨source.toList, 0, 1, 1⟩ ts e) :
    (scanSource file source).2.errors.toList = complaintsOf ts :=
  h.errors_collect ⟨rfl, rfl, rfl, rfl, rfl⟩ (Nat.lt_succ_of_le h.length_le) []

theorem complaintsOf_append_eof {m : Mark} (h : Cuts file m ts e) :
    complaintsOf (ts ++ [e]) = complaintsOf ts := by
  have he : e.complaints = #[] := by simp [Token.complaints, h.kind_eof]
  simp [complaintsOf, he]

end Scanner.Cuts

/-- Feeds that deliver a text whole. `Supplies f ts e out` says that `f` still has to give the
tokens `ts` and then `e`, and to hand over the complaints `out`, which come in before `e` does. -/
class FaithfulFeed (σ : Type) [TokenFeed σ] where
  Supplies : σ → List Token → Token → List Diagnostic → Prop
  next_cons {f : σ} {t : Token} {ts : List Token} {e : Token} {out : List Diagnostic} :
    Supplies f (t :: ts) e out → ∃ arrived out' f',
      TokenFeed.next f = (⟨.ok t, arrived⟩, f') ∧ out = arrived.toList ++ out' ∧ Supplies f' ts e out'
  next_nil {f : σ} {e : Token} {out : List Diagnostic} :
    Supplies f [] e out → ∃ f',
      TokenFeed.next f = (⟨.ok e, out.toArray⟩, f') ∧ Supplies f' [] e []
  poll_eq {f : σ} {ts : List Token} {e : Token} {out : List Diagnostic} :
    Supplies f ts e out → ∃ arrived out' f',
      TokenFeed.poll f = (arrived, f') ∧ out = arrived.toList ++ out' ∧ Supplies f' ts e out'
  close_eq {f : σ} {ts : List Token} {e : Token} {out : List Diagnostic} :
    Supplies f ts e out → ∃ arrived out' f',
      TokenFeed.close f = (⟨.ok (), arrived⟩, f') ∧ out = arrived.toList ++ out'

/-- Feeds that are never behind with their complaints. -/
def FaithfulFeed.Prompt (σ : Type) [TokenFeed σ] [FaithfulFeed σ] : Prop :=
  ∀ {f : σ} {ts : List Token} {e : Token} {out : List Diagnostic},
    Supplies f ts e out → out = complaintsOf ts

namespace Lexer

open Scanner (Ready Cuts)

inductive Supplies : Lexer → List Token → Token → Prop where
  | ready {file : String} {m : Mark} {l : Lexer} {ts : List Token} {e : Token}
      (breaks : l.breaks = none) (ready : Ready file m l.scanner) (errors : l.scanner.errors = #[])
      (cuts : Cuts file m ts e) : Supplies l ts e
  | ended {l : Lexer} {e : Token} (kind : e.kind = .eof) (h : l.next = (.ok e, #[], l)) :
      Supplies l [] e

theorem next_eq {l : Lexer} (h : l.breaks = none) :
    l.next = (.ok l.scanner.nextToken.1, l.scanner.nextToken.2.errors,
      ⟨{ l.scanner.nextToken.2 with errors := #[] }, none⟩) := by
  unfold next
  rw [h]
  rfl

namespace Supplies

variable {l : Lexer} {t : Token} {ts : List Token} {e : Token}

theorem next_cons (h : Supplies l (t :: ts) e) :
    ∃ l', l.next = (.ok t, t.complaints, l') ∧ Supplies l' ts e := by
  cases h with
  | ready breaks ready errors cuts =>
    cases cuts with
    | token hm later =>
      obtain ⟨htoken, hready, herrors⟩ := ready.nextToken_cons hm
      rw [next_eq breaks, htoken, herrors, errors, htoken, Array.empty_append]
      exact ⟨_, rfl, .ready rfl ⟨hready.1, hready.2, hready.3, hready.4, hready.5⟩ rfl later⟩

theorem next_nil (h : Supplies l [] e) : ∃ l', l.next = (.ok e, #[], l') ∧ Supplies l' [] e := by
  cases h with
  | ready breaks ready errors cuts =>
    cases cuts with
    | done hm =>
      obtain ⟨s', hnext, herrors, hagain⟩ := ready.nextToken_nil hm
      rw [next_eq breaks, hnext, herrors, errors]
      refine ⟨_, rfl, .ended rfl ?_⟩
      rw [next_eq rfl, hagain]
  | ended kind h => exact ⟨l, h, .ended kind h⟩

end Supplies

theorem supplies_ofSource {file source : String} {ts : List Token} {e : Token}
    (h : Cuts file ⟨source.toList, 0, 1, 1⟩ ts e) : Supplies (ofSource file source) ts e :=
  .ready rfl ⟨rfl, rfl, rfl, rfl, rfl⟩ rfl h

instance : FaithfulFeed Lexer where
  Supplies l ts e out := Supplies l ts e ∧ out = complaintsOf ts
  next_cons := by
    rintro l t ts e out ⟨h, rfl⟩
    obtain ⟨l', hnext, h'⟩ := h.next_cons
    refine ⟨t.complaints, complaintsOf ts, l', ?_, rfl, h', rfl⟩
    simp only [TokenFeed.next, hnext]
  next_nil := by
    rintro l e out ⟨h, rfl⟩
    obtain ⟨l', hnext, h'⟩ := h.next_nil
    refine ⟨l', ?_, h', rfl⟩
    simp only [TokenFeed.next, hnext]
    rfl
  poll_eq := by
    rintro l ts e out ⟨h, rfl⟩
    exact ⟨#[], complaintsOf ts, l, rfl, rfl, h, rfl⟩
  close_eq := by
    intro l ts e out _
    exact ⟨#[], out, l, rfl, rfl⟩

theorem prompt : FaithfulFeed.Prompt Lexer := fun h => h.2

end Lexer
end Abacus
