import Abacus.Proofs.Grammar.Descent
import Abacus.Proofs.Grammar.Lexeme
import Abacus.Proofs.Parser.Stand

/-! The reference grammar on the tokens of a text. `Accepts` says what a phrase makes of one, and
`Yields` what is known of whatever it makes. -/
namespace Abacus.Grammar

/-- The cursor is before the given tokens, and what comes after them is stray or the end. -/
structure Cursor.At (c : Cursor) (stray : Option Stray) (ts : List Token) : Prop where
  ahead : c.ahead = ts.map .ofToken
  stray : c.stray = stray

theorem Cursor.At.length_lt {c : Cursor} {stray : Option Stray} {ts : List Token}
    (h : c.At stray ts) : ts.length < c.ahead.length + 1 := by
  rw [h.ahead, List.length_map]
  exact Nat.lt_succ_self _

/-- Statements stop where the next token says so, but at no stray character. -/
theorem Cursor.At.at_stop_iff {c : Cursor} {stray : Option Stray} {ts : List Token}
    {stop : Option Kind} (h : c.At stray ts) :
    (c.ahead.head?.map (·.kind) = stop ∧ (c.ahead ≠ [] ∨ c.stray = none)) ↔
      ts.head?.map (·.kind) = stop ∧ (ts ≠ [] ∨ stray = none) := by
  rw [h.ahead, h.stray, List.head?_map, Option.map_map, ne_eq, List.map_eq_nil_iff]
  rfl

namespace PhraseM

variable {α β : Type} {stray : Option Stray} {ts mid rest : List Token}

theorem bind_apply (act : PhraseM β) (k : β → PhraseM α) (c : Cursor) :
    (act >>= k) c =
      match act c with
      | .ok (b, c') => k b c'
      | .error fault => .error fault := by
  show (act c >>= fun x => k x.1 x.2) = _
  cases act c <;> rfl

theorem head?_apply {c : Cursor} (h : c.At stray ts) : head? c = .ok (ts.head?.map (·.kind), c) := by
  show Except.ok (c.ahead.head?.map (·.kind), c) = _
  rw [h.ahead]
  cases ts <;> rfl

theorem second?_apply {c : Cursor} (h : c.At stray ts) : second? c = .ok (ts[1]?.map (·.kind), c) := by
  show Except.ok (c.ahead[1]?.map (·.kind), c) = _
  rw [h.ahead, List.getElem?_map, Option.map_map]
  rfl

theorem take_cons_apply {c : Cursor} {t : Token} (h : c.At stray (t :: ts)) :
    ∃ c', take c = .ok (.ofToken t, c') ∧ c'.At stray ts := by
  obtain ⟨ahead, stray', last⟩ := c
  obtain ⟨rfl, hstray⟩ := h
  exact ⟨_, rfl, rfl, hstray⟩

theorem take_nil_apply {c : Cursor} (h : c.At stray []) : take c = .error c.refusal := by
  obtain ⟨ahead, stray', last⟩ := c
  obtain ⟨rfl, -⟩ := h
  rfl

/-- The phrase `act` takes `ts` up to `rest` and makes `a` of it, if nothing stray comes after. -/
def Accepts (act : PhraseM α) (ts : List Token) (a : α) (rest : List Token) : Prop :=
  ∀ c : Cursor, c.At none ts → ∃ c' : Cursor, act c = .ok (a, c') ∧ c'.At none rest

/-- If the phrase `act` takes `ts` at all, then up to some `rest` and with `Q`. -/
def Yields (stray : Option Stray) (act : PhraseM α) (ts : List Token)
    (Q : α → List Token → Prop) : Prop :=
  ∀ c : Cursor, c.At stray ts → ∀ a (c' : Cursor), act c = .ok (a, c') →
    ∃ rest, rest <:+ ts ∧ c'.At stray rest ∧ Q a rest

section Accepts

variable {a : α}

theorem accepts_pure : Accepts (pure a) ts a ts := fun c hc => ⟨c, rfl, hc⟩

theorem accepts_bind {act : PhraseM β} {k : β → PhraseM α} {b : β} (hact : Accepts act ts b mid)
    (hk : Accepts (k b) mid a rest) : Accepts (act >>= k) ts a rest := by
  intro c hc
  obtain ⟨c', hact, hc'⟩ := hact c hc
  rw [bind_apply, hact]
  exact hk c' hc'

theorem accepts_head?_bind {k : Option Kind → PhraseM α}
    (hk : Accepts (k (ts.head?.map (·.kind))) ts a rest) : Accepts (head? >>= k) ts a rest :=
  accepts_bind (fun c hc => ⟨c, head?_apply hc, hc⟩) hk

theorem accepts_second?_bind {k : Option Kind → PhraseM α}
    (hk : Accepts (k (ts[1]?.map (·.kind))) ts a rest) : Accepts (second? >>= k) ts a rest :=
  accepts_bind (fun c hc => ⟨c, second?_apply hc, hc⟩) hk

theorem accepts_take_bind {k : Lexeme → PhraseM α} {t : Token}
    (hk : Accepts (k (.ofToken t)) ts a rest) : Accepts (take >>= k) (t :: ts) a rest :=
  accepts_bind (fun _ hc => take_cons_apply hc) hk

theorem accepts_expect_bind {kind : Kind} {k : Lexeme → PhraseM α} {t : Token} (ht : t.kind = kind)
    (hk : Accepts (k (.ofToken t)) ts a rest) : Accepts (expect kind >>= k) (t :: ts) a rest := by
  refine accepts_bind ?_ hk
  unfold expect
  apply accepts_head?_bind
  simp only [List.head?_cons, Option.map_some, ht, if_true]
  exact fun _ hc => take_cons_apply hc

theorem accepts_get_bind {k : Cursor → PhraseM α}
    (hk : ∀ c : Cursor, c.At none ts → Accepts (k c) ts a rest) : Accepts (get >>= k) ts a rest :=
  fun c hc => hk c hc c hc

end Accepts

section Yields

variable {Q : α → List Token → Prop}

theorem yields_refuse : Yields stray refuse ts Q := by
  intro c _ a c' h
  cases h

theorem yields_pure {a : α} (h : Q a ts) : Yields stray (pure a) ts Q := by
  intro c hc a' c' hpure
  cases hpure
  exact ⟨ts, List.suffix_rfl, hc, h⟩

theorem yields_bind {act : PhraseM β} {k : β → PhraseM α} {P : β → List Token → Prop}
    (hact : Yields stray act ts P) (hk : ∀ b mid, mid <:+ ts → P b mid → Yields stray (k b) mid Q) :
    Yields stray (act >>= k) ts Q := by
  intro c hc a c' h
  rw [bind_apply] at h
  cases hresult : act c with
  | error fault =>
    rw [hresult] at h
    cases h
  | ok result =>
    rw [hresult] at h
    obtain ⟨mid, hmid, hc₁, hP⟩ := hact c hc result.1 result.2 hresult
    obtain ⟨rest, hrest, hc', hQ⟩ := hk result.1 mid hmid hP result.2 hc₁ a c' h
    exact ⟨rest, hrest.trans hmid, hc', hQ⟩

theorem yields_mono {act : PhraseM α} {P : α → List Token → Prop} (h : Yields stray act ts P)
    (hPQ : ∀ a rest, rest <:+ ts → P a rest → Q a rest) : Yields stray act ts Q := by
  intro c hc a c' hact
  obtain ⟨rest, hrest, hc', hP⟩ := h c hc a c' hact
  exact ⟨rest, hrest, hc', hPQ a rest hrest hP⟩

theorem yields_head?_bind {k : Option Kind → PhraseM α}
    (hk : Yields stray (k (ts.head?.map (·.kind))) ts Q) : Yields stray (head? >>= k) ts Q := by
  intro c hc a c' h
  rw [bind_apply, head?_apply hc] at h
  exact hk c hc a c' h

theorem yields_second?_bind {k : Option Kind → PhraseM α}
    (hk : Yields stray (k (ts[1]?.map (·.kind))) ts Q) : Yields stray (second? >>= k) ts Q := by
  intro c hc a c' h
  rw [bind_apply, second?_apply hc] at h
  exact hk c hc a c' h

theorem yields_get_bind {k : Cursor → PhraseM α}
    (hk : ∀ c : Cursor, c.At stray ts → Yields stray (k c) ts Q) : Yields stray (get >>= k) ts Q :=
  fun c hc => hk c hc c hc

theorem yields_take {P : Lexeme → List Token → Prop}
    (h : ∀ t rest, ts = t :: rest → P (.ofToken t) rest) : Yields stray take ts P := by
  intro c hc a c' htake
  cases ts with
  | nil =>
    cases (take_nil_apply hc).symm.trans htake
  | cons t rest =>
    obtain ⟨c₁, htake₁, hc₁⟩ := take_cons_apply hc
    cases htake₁.symm.trans htake
    exact ⟨rest, List.suffix_cons t rest, hc₁, h t rest rfl⟩

theorem yields_take_bind {k : Lexeme → PhraseM α} {t : Token}
    (hk : Yields stray (k (.ofToken t)) ts Q) : Yields stray (take >>= k) (t :: ts) Q := by
  refine yields_bind (yields_take (P := fun l rest => l = .ofToken t ∧ rest = ts) ?_) ?_
  · rintro t' rest ⟨⟩
    exact ⟨rfl, rfl⟩
  · rintro _ _ _ ⟨rfl, rfl⟩
    exact hk

theorem yields_expect_bind {kind : Kind} {k : Lexeme → PhraseM α}
    (hk : ∀ t rest, ts = t :: rest → t.kind = kind → Yields stray (k (.ofToken t)) rest Q) :
    Yields stray (expect kind >>= k) ts Q := by
  refine yields_bind (P := fun l rest => ∃ t, ts = t :: rest ∧ t.kind = kind ∧ l = .ofToken t) ?_ ?_
  · unfold expect
    apply yields_head?_bind
    split
    · rename_i hkind
      apply yields_take
      rintro t rest rfl
      exact ⟨t, rfl, Option.some.inj hkind, rfl⟩
    · exact yields_refuse
  · rintro _ rest _ ⟨t, hts, hkind, rfl⟩
    exact hk t rest hts hkind

end Yields

end PhraseM

end Abacus.Grammar
