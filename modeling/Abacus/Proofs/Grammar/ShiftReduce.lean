import Abacus.Proofs.Grammar.Cursor
import Abacus.Proofs.Grammar.Tables

/-! Runs of the reference parser, a step at a time, and how they go along with a phrase that is read
from the top down. -/
namespace Abacus

namespace Outline

theorem canonicalAll_eq_map (os : List Outline) : canonicalAll os = os.map canonical := by
  induction os with
  | nil => rfl
  | cons o rest ih => rw [canonicalAll, ih, List.map_cons]

theorem shapes_eq_map (os : List Outline) : shapes os = os.map shape := by
  induction os with
  | nil => rfl
  | cons o rest ih => rw [shapes, ih, List.map_cons]

def reduced (o : Outline) : Shape := o.canonical.shape

@[simp] theorem reduced_leaf (k : Kind) (text : String) : (leaf k text).reduced = .token text := rfl

theorem reduced_branch (label : String) (h : label ∉ Grammar.wrappers) (os : List Outline) :
    (branch label os).reduced = .rule label (os.map reduced) := by
  rw [reduced, canonical, if_neg h, shape, canonicalAll_eq_map, shapes_eq_map, List.map_map]
  rfl

theorem reduced_wrapper (label : String) (h : label ∈ Grammar.wrappers) (k : Kind) (text : String) :
    (branch label [leaf k text]).reduced = .token text := by
  rw [reduced, canonical, if_pos h]
  rfl

end Outline

namespace Grammar

namespace Cursor

def step (c : Cursor) (l : Lexeme) (rest : List Lexeme) : Cursor :=
  { c with ahead := rest, last := some l }

def allows (c : Cursor) (set : Kind → Bool) : Bool := c.look?.any set

theorem look?_of_ahead {c : Cursor} {l : Lexeme} {rest : List Lexeme} (h : c.ahead = l :: rest) :
    c.look? = some l.kind := by
  rw [look?, h]

theorem eq_eof_of_ahead_nil {c : Cursor} {k : Kind} (h : c.ahead = []) (hk : c.look? = some k) :
    k = .eof := by
  rw [look?, h] at hk
  cases hstray : c.stray with
  | none =>
    rw [hstray] at hk
    exact (Option.some.inj hk).symm
  | some s =>
    rw [hstray] at hk
    cases hk

theorem allows_of_look? {c : Cursor} {k : Kind} {set : Kind → Bool} (h : c.look? = some k)
    (hset : set k = true) : c.allows set = true := by
  rw [allows, h]
  exact hset

theorem eq_false_of_not_allows {c : Cursor} {k : Kind} {set : Kind → Bool}
    (hc : ¬ c.allows set = true) (h : c.look? = some k) : set k = false :=
  Bool.eq_false_iff.mpr fun hset => hc (allows_of_look? h hset)

end Cursor

open Cursor (step allows)

section Run

variable {stack : List Frame} {c : Cursor} {l : Lexeme} {rest : List Lexeme} {q r : Nat}
  {p : Production} {set : Kind → Bool}

theorem run_eq (stack : List Frame) (c : Cursor) :
    run stack c = next stack c >>= Sum.elim (fun s => run s.1 s.2) .ok := by
  have hrun : run stack c = repeatM.body _ (repeatM _) (stack, c) := repeatM_eq_of_monadTail _
  rw [hrun, repeatM.body]
  cases next stack c with
  | error e => rfl
  | ok after => cases after <;> rfl

theorem run_shift (hc : c.ahead = l :: rest) (h : goto (top stack) (.kind l.kind) = some r) :
    run stack c = run (⟨r, .leaf l.kind l.text⟩ :: stack) (c.step l rest) := by
  have hnext : next stack c = .ok (.inl (⟨r, .leaf l.kind l.text⟩ :: stack, c.step l rest)) := by
    rw [next, Cursor.look?_of_ahead hc, Option.bind_some, actionAt_of_goto h]
    simp only [hc]
    rfl
  rw [run_eq, hnext]
  rfl

theorem run_refuse (h : ∀ k, c.look? = some k → actionAt (top stack) k = none) :
    run stack c = .error c.refusal := by
  have hnone : c.look?.bind (actionAt (top stack)) = none := by
    cases hlook : c.look? with
    | none => rfl
    | some k => exact h k hlook
  rw [run_eq, next, hnone]
  rfl

theorem run_reduce (frames : List Frame) {k : Kind} (hlook : c.look? = some k)
    (h : actionAt (top (frames ++ stack)) k = some (.reduce p))
    (hlength : frames.length = p.body.length) (hgoto : goto (top stack) (.phrase p.head) = some q) :
    run (frames ++ stack) c = run (⟨q, p.build (frames.reverse.map (·.value))⟩ :: stack) c := by
  rw [run_eq, next, hlook, Option.bind_some, h]
  simp only [← hlength, List.drop_left, List.take_left, hgoto]
  rfl

theorem run_complete (frames : List Frame)
    (h : ∀ k, c.look? = some k →
      actionAt (top (frames ++ stack)) k = if set k then some (.reduce p) else none)
    (hlength : frames.length = p.body.length) (hgoto : goto (top stack) (.phrase p.head) = some q) :
    run (frames ++ stack) c =
      if c.allows set then run (⟨q, p.build (frames.reverse.map (·.value))⟩ :: stack) c
      else .error c.refusal := by
  unfold allows
  cases hlook : c.look? with
  | none =>
    rw [run_refuse (by simp [hlook])]
    rfl
  | some k =>
    have hk := h k hlook
    cases hset : set k with
    | true =>
      rw [hset, if_pos rfl] at hk
      rw [Option.any_some, hset, if_pos rfl, run_reduce frames hlook hk hlength hgoto]
    | false =>
      rw [hset, if_neg (by simp)] at hk
      rw [Option.any_some, hset, if_neg (by simp)]
      refine run_refuse fun k' hk' => ?_
      cases hlook.symm.trans hk'
      exact hk

end Run

theorem if_allows {α : Type} {c : Cursor} {set set' : Kind → Bool} {x y : α}
    (h : ∀ k, c.look? = some k → set' k = true → set k = true) :
    (if c.allows set then if c.allows set' then x else y else y) =
      if c.allows set' then x else y := by
  unfold allows
  cases hlook : c.look? with
  | none => rfl
  | some k =>
    have hk := h k hlook
    simp only [Option.any_some]
    by_cases hset' : set' k
    · simp [hset', hk hset']
    · simp [hset']

/-- The cursor is past a part of what was ahead. -/
structure Cursor.Past (c' c : Cursor) : Prop where
  suffix : c'.ahead <:+ c.ahead
  shorter : c'.ahead.length < c.ahead.length

namespace Cursor.Past

variable {c c' c'' : Cursor}

theorem of_step {l : Lexeme} {rest : List Lexeme} (h : c.ahead = l :: rest) :
    (c.step l rest).Past c where
  suffix := h ▸ List.suffix_cons l rest
  shorter := h ▸ Nat.lt_succ_self _

theorem trans (h : c''.Past c') (h' : c'.Past c) : c''.Past c where
  suffix := h.suffix.trans h'.suffix
  shorter := Nat.lt_trans h.shorter h'.shorter

end Cursor.Past

open PhraseM

/-- The outcome is the fault of the phrase, or `K` holds of what the phrase makes and where it ends. -/
def Sim {α : Type} (out : Except Error Outline) (act : PhraseM α) (c : Cursor)
    (K : α → Cursor → Prop) : Prop :=
  match act c with
  | .error e => out = .error e
  | .ok (a, c') => K a c'

section Sim

variable {α β : Type} {out : Except Error Outline} {c : Cursor} {l : Lexeme} {rest : List Lexeme}
  {K K' : α → Cursor → Prop}

theorem Sim.mono {act : PhraseM α} (h : Sim out act c K) (hK : ∀ a c', K a c' → K' a c') :
    Sim out act c K' := by
  unfold Sim at *
  split at h
  · exact h
  · exact hK _ _ h

theorem sim_refuse (h : out = .error c.refusal) : Sim out refuse c K := h

theorem sim_of_error {act : PhraseM α} (hact : act c = .error c.refusal)
    (h : out = .error c.refusal) : Sim out act c K := by
  unfold Sim
  rw [hact]
  exact h

theorem sim_bind {act : PhraseM β} {k : β → PhraseM α}
    (h : Sim out act c fun b c' => Sim out (k b) c' K) : Sim out (act >>= k) c K := by
  unfold Sim at *
  rw [bind_apply]
  cases hact : act c with
  | error e =>
    rw [hact] at h
    exact h
  | ok result =>
    rw [hact] at h
    exact h

theorem sim_head?_bind {k : Option Kind → PhraseM α}
    (h : Sim out (k (c.ahead.head?.map (·.kind))) c K) : Sim out (head? >>= k) c K :=
  sim_bind h

theorem sim_second?_bind {k : Option Kind → PhraseM α}
    (h : Sim out (k (c.ahead[1]?.map (·.kind))) c K) : Sim out (second? >>= k) c K :=
  sim_bind h

theorem sim_get_bind {k : Cursor → PhraseM α} (h : Sim out (k c) c K) : Sim out (get >>= k) c K :=
  sim_bind h

theorem take_apply (h : c.ahead = l :: rest) : take c = .ok (l, c.step l rest) := by
  obtain ⟨ahead, stray, last⟩ := c
  cases h
  rfl

theorem sim_take_bind {k : Lexeme → PhraseM α} (hc : c.ahead = l :: rest)
    (h : Sim out (k l) (c.step l rest) K) : Sim out (take >>= k) c K := by
  apply sim_bind
  unfold Sim
  rw [take_apply hc]
  exact h

theorem sim_expect_bind {kind : Kind} {k : Lexeme → PhraseM α}
    (h : ∀ l rest, c.ahead = l :: rest → l.kind = kind → Sim out (k l) (c.step l rest) K)
    (hrefuse : (∀ k, c.look? = some k → k ≠ kind) → out = .error c.refusal) (hkind : kind ≠ .eof) :
    Sim out (expect kind >>= k) c K := by
  apply sim_bind
  unfold expect
  apply sim_head?_bind
  cases hc : c.ahead with
  | nil =>
    apply sim_refuse
    apply hrefuse
    rintro _ hlook rfl
    exact hkind (Cursor.eq_eof_of_ahead_nil hc hlook)
  | cons l rest =>
    simp only [List.head?_cons, Option.map_some, Option.some.injEq]
    by_cases hl : l.kind = kind
    · rw [if_pos hl]
      unfold Sim
      rw [take_apply hc]
      exact h l rest hc hl
    · rw [if_neg hl]
      apply sim_refuse
      apply hrefuse
      rintro _ hlook rfl
      exact hl (Option.some.inj ((Cursor.look?_of_ahead hc).symm.trans hlook))

end Sim

/-- A phrase that began on `stack` at `c` is complete at `c'`, before one of the kinds in `set`, or else
the parser stops there. -/
structure Reached (phrase : Nonterminal) (set among : Kind → Bool) (stack : List Frame) (c : Cursor)
    (out : Except Error Outline) (P : Outline → Prop) (c' : Cursor) : Prop where
  past : c'.Past c
  among : ∀ k, c'.look? = some k → among k = true
  outcome : ∃ q o, goto (top stack) (.phrase phrase) = some q ∧ P o ∧
    out = if c'.allows set then run (⟨q, o⟩ :: stack) c' else .error c'.refusal

/-- The parser goes along with a phrase that is read from the top down. -/
def Tracks (act : PhraseM Shape) (name : Name) (set among : Kind → Bool) (stack : List Frame)
    (c : Cursor) : Prop :=
  Sim (run stack c) act c fun sh =>
    Reached (.rule name) set among stack c (run stack c) (·.reduced = sh)

section Reached

variable {phrase : Nonterminal} {name part : Name} {set set' among among' : Kind → Bool}
  {stack : List Frame} {c₀ c c' : Cursor} {out : Except Error Outline} {P P' : Outline → Prop}
  {p : Production}

theorem Reached.before (h : Reached phrase set among stack c out P c')
    (hamong : ∀ k, c'.look? = some k → among' k = true) : Reached phrase set among' stack c out P c' :=
  ⟨h.past, hamong, h.outcome⟩

theorem Reached.of_completes (frames : List Frame) (hpast : c'.Past c)
    (h : ∀ k, c'.look? = some k →
      actionAt (top (frames ++ stack)) k = if set k then some (.reduce p) else none)
    (hlength : frames.length = p.body.length) (hbegins : (goto (top stack) (.phrase p.head)).isSome)
    (hbuild : P (p.build (frames.reverse.map (·.value)))) :
    Reached p.head set (fun _ => true) stack c (run (frames ++ stack) c') P c' where
  past := hpast
  among := fun _ _ => rfl
  outcome := by
    obtain ⟨q, hq⟩ := Option.isSome_iff_exists.mp hbegins
    exact ⟨q, _, hq, hbuild, run_complete frames h hlength hq⟩

theorem Reached.complete (frames : List Frame)
    (h : Reached (.rule part) set among (frames ++ stack) c out P c')
    (hends : Ends (top (frames ++ stack)) (.phrase (.rule part)) p set' among)
    (hset : ∀ k, among k = true → set' k = true → set k = true)
    (hlength : frames.length + 1 = p.body.length)
    (hbegins : (goto (top stack) (.phrase p.head)).isSome) (hc : c.ahead <:+ c₀.ahead)
    (hbuild : ∀ o, P o → P' (p.build (frames.reverse.map (·.value) ++ [o]))) :
    Reached p.head set' among stack c₀ out P' c' := by
  obtain ⟨past, hamong, q, o, hq, ho, hout⟩ := h
  obtain ⟨r, hr, hcompletes⟩ := hends
  cases hq.symm.trans hr
  have hpast : c'.Past c₀ := ⟨past.suffix.trans hc, Nat.lt_of_lt_of_le past.shorter hc.length_le⟩
  obtain ⟨q', hq'⟩ := Option.isSome_iff_exists.mp hbegins
  have haction (k : Kind) (hk : c'.look? = some k) := hcompletes k (mem_all k) (hamong k hk)
  have hrun : run (⟨q, o⟩ :: frames ++ stack) c' = _ :=
    run_complete (⟨q, o⟩ :: frames) haction hlength hq'
  refine ⟨hpast, hamong, q', _, hq', hbuild o ho, ?_⟩
  rw [hout, ← List.cons_append, hrun, List.reverse_cons, List.map_append]
  exact if_allows fun k hk => hset k (hamong k hk)

/-- One of several phrases that another can be. -/
theorem Reached.choice (h : Reached (.rule part) set among stack c out P c')
    (hends : Ends (top stack) (.phrase (.rule part)) (.ofChoice name part) set' among)
    (hset : ∀ k, among k = true → set' k = true → set k = true) (hbegins : Begins (top stack) name) :
    Reached (.rule name) set' among stack c out P c' :=
  Reached.complete [] h hends hset rfl hbegins List.suffix_rfl fun _ ho => ho

end Reached

end Grammar

end Abacus
