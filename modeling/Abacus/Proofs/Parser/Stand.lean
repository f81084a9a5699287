import Abacus.Parser.Program
import Abacus.Proofs.Feed.Supply

/-! Where a parser stands in its text, said without its window and its feed, and what each of its
primitive steps makes of that. -/
namespace Abacus

/-- Two lists that come in side by side: the third has the members of both, each in its order. -/
inductive Interleaves {α : Type} : List α → List α → List α → Prop where
  | nil : Interleaves [] [] []
  | left {a : α} {l r m : List α} (later : Interleaves l r m) : Interleaves (a :: l) r (a :: m)
  | right {a : α} {l r m : List α} (later : Interleaves l r m) : Interleaves l (a :: r) (a :: m)

namespace Interleaves

variable {α : Type} {l r m : List α}

theorem append {l' r' m' : List α} (h : Interleaves l r m) (h' : Interleaves l' r' m') :
    Interleaves (l ++ l') (r ++ r') (m ++ m') := by
  induction h with
  | nil => exact h'
  | left _ ih => exact .left ih
  | right _ ih => exact .right ih

theorem of_left (l : List α) : Interleaves l [] l := by
  induction l with
  | nil => exact .nil
  | cons a l ih => exact .left ih

theorem of_right (r : List α) : Interleaves [] r r := by
  induction r with
  | nil => exact .nil
  | cons a r ih => exact .right ih

theorem append_left (h : Interleaves l r m) (l' : List α) :
    Interleaves (l ++ l') r (m ++ l') := by
  simpa using h.append (of_left l')

theorem append_right (h : Interleaves l r m) (r' : List α) :
    Interleaves l (r ++ r') (m ++ r') := by
  simpa using h.append (of_right r')

theorem perm (h : Interleaves l r m) : m.Perm (l ++ r) := by
  induction h with
  | nil => exact .nil
  | left _ ih => exact ih.cons _
  | right _ ih => exact (ih.cons _).trans List.perm_middle.symm

theorem filter_eq (h : Interleaves l r m) {p : α → Bool} (hl : ∀ a ∈ l, p a = false)
    (hr : ∀ a ∈ r, p a = true) : m.filter p = r ∧ (m.filter fun a => !p a) = l := by
  induction h with
  | nil => exact ⟨rfl, rfl⟩
  | left _ ih =>
    obtain ⟨ha, hl⟩ := List.forall_mem_cons.mp hl
    obtain ⟨hright, hleft⟩ := ih hl hr
    simp [ha, hright, hleft]
  | right _ ih =>
    obtain ⟨ha, hr⟩ := List.forall_mem_cons.mp hr
    obtain ⟨hright, hleft⟩ := ih hl hr
    simp [ha, hright, hleft]

end Interleaves

def deepMessage (limit : Nat) : String := s!"nesting too deep (more than {limit} levels)"

theorem head?_toList_append {text : String} {c : Char} (h : text.toList.head? = some c)
    (more : String) : (text ++ more).toList.head? = some c := by
  rw [String.toList_append, List.head?_append, h]
  rfl

theorem head?_deepMessage (limit : Nat) : (deepMessage limit).toList.head? = some 'n' :=
  head?_toList_append (head?_toList_append rfl _) _

/-- What a parser has read, what lies ahead of it, and what it has reported, with the name and the
text of its source. What the lexer complains of is left out. -/
@[ext] structure Stand where
  origin : String × String
  behind : List Token
  ahead : List Token
  eof : Token
  limit : Nat
  reports : List (Span × String)
  deepStop : Option Nat
  statements : List Node
  kind_eof : eof.kind = .eof
  kind_ne_eof : ∀ t ∈ behind ++ ahead, t.kind ≠ .eof
  deepStop_reported : deepStop ≠ none → ∃ r ∈ reports, r.2 = deepMessage limit

def leadKind : List Token → Kind
  | [] => .eof
  | t :: _ => t.kind

@[simp] theorem leadKind_nil : leadKind [] = .eof := rfl

@[simp] theorem leadKind_cons (t : Token) (ts : List Token) : leadKind (t :: ts) = t.kind := rfl

namespace Stand

def tokens (s : Stand) : List Token := s.behind ++ s.ahead

def look (s : Stand) (n : Nat) : Token := s.ahead.getD n s.eof

def head (s : Stand) : Token := s.look 0

def skip (s : Stand) (n : Nat) : Stand :=
  { s with
    behind := s.behind ++ s.ahead.take n
    ahead := s.ahead.drop n
    kind_ne_eof := by simpa using s.kind_ne_eof }

def advance (s : Stand) : Stand := s.skip 1

def report (s : Stand) (span : Span) (message : String) : Stand :=
  { s with
    reports := s.reports ++ [(span, message)]
    deepStop_reported := fun h => by
      obtain ⟨r, hr, hmessage⟩ := s.deepStop_reported h
      exact ⟨r, List.mem_append_left _ hr, hmessage⟩ }

def diagnostics (s : Stand) : List Diagnostic := s.reports.map fun r => .error r.1 r.2

variable (s : Stand)

@[simp] theorem ahead_skip (n : Nat) : (s.skip n).ahead = s.ahead.drop n := rfl

@[simp] theorem behind_skip (n : Nat) : (s.skip n).behind = s.behind ++ s.ahead.take n := rfl

@[simp] theorem tokens_skip (n : Nat) : (s.skip n).tokens = s.tokens := by
  simp [tokens]

@[simp] theorem reports_skip (n : Nat) : (s.skip n).reports = s.reports := rfl

@[simp] theorem origin_skip (n : Nat) : (s.skip n).origin = s.origin := rfl

@[simp] theorem eof_skip (n : Nat) : (s.skip n).eof = s.eof := rfl

@[simp] theorem limit_skip (n : Nat) : (s.skip n).limit = s.limit := rfl

@[simp] theorem deepStop_skip (n : Nat) : (s.skip n).deepStop = s.deepStop := rfl

@[simp] theorem statements_skip (n : Nat) : (s.skip n).statements = s.statements := rfl

@[simp] theorem skip_zero : s.skip 0 = s := by
  simp [skip]

@[simp] theorem skip_skip (n k : Nat) : (s.skip n).skip k = s.skip (n + k) := by
  simp [skip, List.take_add]

@[simp] theorem tokens_advance : s.advance.tokens = s.tokens := s.tokens_skip 1

@[simp] theorem reports_advance : s.advance.reports = s.reports := rfl

@[simp] theorem tokens_report (span : Span) (message : String) :
    (s.report span message).tokens = s.tokens := rfl

@[simp] theorem ahead_report (span : Span) (message : String) :
    (s.report span message).ahead = s.ahead := rfl

@[simp] theorem behind_report (span : Span) (message : String) :
    (s.report span message).behind = s.behind := rfl

variable {s}

theorem head_of_cons {t : Token} {ts : List Token} (h : s.ahead = t :: ts) : s.head = t := by
  simp [head, look, h]

theorem head_of_nil (h : s.ahead = []) : s.head = s.eof := by
  simp [head, look, h]

theorem kind_head : s.head.kind = leadKind s.ahead := by
  cases h : s.ahead with
  | nil => rw [head_of_nil h, s.kind_eof, leadKind_nil]
  | cons t ts => rw [head_of_cons h, leadKind_cons]

theorem look_advance (n : Nat) : s.advance.look n = s.look (n + 1) := by
  simp [look, advance, List.getD]

theorem head_advance : s.advance.head = s.look 1 := look_advance 0

theorem kind_look_one : (s.look 1).kind = leadKind s.ahead.tail := by
  rw [← head_advance, kind_head, advance, ahead_skip, List.drop_one]

theorem advance_of_nil (h : s.ahead = []) : s.advance = s := by
  apply Stand.ext <;> simp [advance, h]

/-- The head is of a proper kind just where there is something ahead. -/
theorem ahead_eq_cons (h : s.head.kind ≠ .eof) : s.ahead = s.head :: s.advance.ahead := by
  cases hs : s.ahead with
  | nil => exact absurd (head_of_nil hs ▸ s.kind_eof) h
  | cons t ts => rw [head_of_cons hs, advance, ahead_skip, hs, List.drop_one, List.tail_cons]

theorem ahead_eq_cons_cons (h : s.head.kind ≠ .eof) (h' : (s.look 1).kind ≠ .eof) :
    s.ahead = s.head :: s.look 1 :: (s.skip 2).ahead := by
  have hnext := ahead_eq_cons (s := s.advance) (by rwa [head_advance])
  rw [head_advance, advance, advance, skip_skip] at hnext
  rw [ahead_eq_cons h, advance, hnext]

theorem ahead_eq_nil (h : s.head.kind = .eof) : s.ahead = [] := by
  cases hs : s.ahead with
  | nil => rfl
  | cons t ts =>
    have ht := s.kind_ne_eof t (by simp [hs])
    exact absurd (head_of_cons hs ▸ h) ht

theorem behind_advance (h : s.head.kind ≠ .eof) : s.advance.behind = s.behind ++ [s.head] := by
  rw [advance, behind_skip, ahead_eq_cons h, List.take_succ_cons, List.take_zero]

theorem length_ahead_advance (h : s.head.kind ≠ .eof) :
    s.ahead.length = s.advance.ahead.length + 1 := by
  rw [ahead_eq_cons h, List.length_cons]

end Stand

variable {σ : Type} [TokenFeed σ] [FaithfulFeed σ]

/-- The parser stands there: its window holds what is next, its feed supplies what follows, and
what it was told by the lexer and has reported itself are its diagnostics. -/
structure Parser.Shows (p : Parser σ) (s : Stand) : Prop where
  window : ∀ n t, p.window[n]? = some t → t = s.look n
  feed : ∃ arrived out, FaithfulFeed.Supplies p.feed (s.ahead.drop p.window.length) s.eof out ∧
    arrived ++ out = complaintsOf s.tokens ∧
    Interleaves s.diagnostics arrived p.diagnostics.toList ∧
    (s.ahead.length < p.window.length → out = [])
  consumed : p.consumed = s.behind.length
  deepStop : p.deepStop = s.deepStop
  limit : p.limit = s.limit
  statements : p.statements.toList = s.statements
  budget : s.tokens.length < p.budget
  origin : (p.file, p.source) = s.origin

theorem Parser.Shows.length_lt {p : Parser σ} {s : Stand} (h : p.Shows s) :
    s.ahead.length < p.budget := by
  have hbudget := h.budget
  rw [Stand.tokens, List.length_append] at hbudget
  omega

namespace ParseM

theorem bind_apply {σ α β : Type} (act : ParseM σ α) (k : α → ParseM σ β) (p : Parser σ) :
    (act >>= k) p =
      match act p with
      | (.ok a, p') => k a p'
      | (.error fault, p') => (.error fault, p') := by
  show ExceptT.bind act k p = _
  unfold ExceptT.bind ExceptT.mk
  rcases h : act p with ⟨result, p'⟩
  cases result with
  | ok a => simp [bind, StateT.bind, ExceptT.bindCont, h]
  | error fault =>
    simp [bind, StateT.bind, ExceptT.bindCont, h]
    rfl

theorem modifyGet_apply {σ α : Type} (f : Parser σ → α × Parser σ) (p : Parser σ) :
    (modifyGet f : ParseM σ α) p = (.ok (f p).1, (f p).2) := rfl

theorem modify_apply {σ : Type} (f : Parser σ → Parser σ) (p : Parser σ) :
    (modify f : ParseM σ Unit) p = (.ok (), f p) := rfl

theorem get_apply {σ : Type} (p : Parser σ) : (get : ParseM σ (Parser σ)) p = (.ok p, p) := rfl

theorem request_eq {σ α : Type} {ask : σ → Reply α × σ} {p : Parser σ} {a : α}
    {arrived : Diagnostics} {f : σ} (h : ask p.feed = (⟨.ok a, arrived⟩, f)) :
    request ask p = (.ok a, { p with feed := f }.arrive arrived) := by
  unfold request
  rw [bind_apply, modifyGet_apply]
  simp only [h]
  rfl

theorem next_eq {f : σ} {s : Stand} {n : Nat} {out : List Diagnostic}
    (h : FaithfulFeed.Supplies f (s.ahead.drop n) s.eof out) :
    ∃ more out' f', TokenFeed.next f = (⟨.ok (s.look n), more⟩, f') ∧ out = more.toList ++ out' ∧
      FaithfulFeed.Supplies f' (s.ahead.drop (n + 1)) s.eof out' ∧
      (s.ahead.length ≤ n → out' = []) := by
  cases hrest : s.ahead.drop n with
  | nil =>
    rw [hrest] at h
    have hlength : s.ahead.length ≤ n := List.drop_eq_nil_iff.mp hrest
    obtain ⟨f', hnext, hsupplies⟩ := FaithfulFeed.next_nil h
    refine ⟨out.toArray, [], f', ?_, by simp, ?_, fun _ => rfl⟩
    · simp [hnext, Stand.look, hlength]
    · rwa [List.drop_eq_nil_of_le (by omega)]
  | cons t ts =>
    rw [hrest] at h
    have hlength : n < s.ahead.length := by
      rw [← List.drop_eq_nil_iff.not.trans Nat.not_le, hrest]
      simp
    rw [List.drop_eq_getElem_cons hlength] at hrest
    obtain ⟨rfl, rfl⟩ := List.cons_eq_cons.mp hrest
    obtain ⟨more, out', f', hnext, hout, hsupplies⟩ := FaithfulFeed.next_cons h
    refine ⟨more, out', f', ?_, hout, hsupplies, fun hn => absurd hlength (Nat.not_lt.mpr hn)⟩
    simp [hnext, Stand.look, hlength]

theorem fetch_eq {p : Parser σ} {s : Stand} (h : p.Shows s) :
    ∃ p', fetch p = (.ok (s.look p.window.length), p') ∧ p'.Shows s ∧
      p'.window.length = p.window.length + 1 := by
  obtain ⟨arrived, out, hsupplies, hout, hdiagnostics, hend⟩ := h.feed
  obtain ⟨more, out', f', hnext, rfl, hsupplies', hend'⟩ := next_eq hsupplies
  unfold fetch
  rw [bind_apply, request_eq hnext]
  dsimp only
  rw [bind_apply, modify_apply]
  refine ⟨_, rfl, ⟨?_, ⟨arrived ++ more.toList, out', ?_, ?_, ?_, ?_⟩, h.consumed, h.deepStop,
    h.limit, h.statements, h.budget, h.origin⟩, ?_⟩
  · intro n t ht
    rcases Nat.lt_trichotomy n p.window.length with hn | rfl | hn
    · exact h.window n t (by simpa [Parser.arrive, List.getElem?_append_left hn] using ht)
    · simpa [Parser.arrive] using ht.symm
    · have hbound := (List.getElem?_eq_some_iff.mp ht).1
      simp only [Parser.arrive, List.length_append, List.length_singleton] at hbound
      omega
  · simpa [Parser.arrive] using hsupplies'
  · rw [List.append_assoc, hout]
  · simpa [Parser.arrive] using hdiagnostics.append_right more.toList
  · intro hlength
    simp [Parser.arrive] at hlength
    exact hend' (by omega)
  · simp [Parser.arrive]

/-- The token in view at the end, after fetching a number of tokens and one more. -/
theorem fetchMore_eq {p : Parser σ} {s : Stand} (h : p.Shows s) (n : Nat) :
    ∃ p', fetchMore n p = (.ok (s.look (p.window.length + n)), p') ∧ p'.Shows s ∧
      p'.window.length = p.window.length + n + 1 := by
  induction n generalizing p with
  | zero => exact fetch_eq h
  | succ n ih =>
    obtain ⟨p', hfetch, hshows, hlength⟩ := fetch_eq h
    obtain ⟨p'', hmore, hshows', hlength'⟩ := ih hshows
    unfold fetchMore
    rw [bind_apply, hfetch]
    refine ⟨p'', ?_, hshows', by omega⟩
    rw [hlength, Nat.add_assoc, Nat.add_comm 1] at hmore
    exact hmore

theorem peek_eq {p : Parser σ} {s : Stand} (h : p.Shows s) (n : Nat) :
    ∃ p', peek n p = (.ok (s.look n), p') ∧ p'.Shows s ∧ n < p'.window.length := by
  unfold peek
  rw [bind_apply, get_apply]
  dsimp only
  cases hn : p.window[n]? with
  | some t => exact ⟨p, by rw [h.window n t hn]; rfl, h, (List.getElem?_eq_some_iff.mp hn).1⟩
  | none =>
    have hlength : p.window.length ≤ n := List.getElem?_eq_none_iff.mp hn
    obtain ⟨p', hmore, hshows, hlength'⟩ := fetchMore_eq h (n - p.window.length)
    rw [Nat.add_sub_cancel' hlength] at hmore
    exact ⟨p', hmore, hshows, by omega⟩

theorem take_eq {p : Parser σ} {s : Stand} (h : p.Shows s) :
    ∃ p', take p = (.ok s.head, p') ∧ p'.Shows s.advance := by
  obtain ⟨p', hpeek, hshows, hlength⟩ := peek_eq h 0
  unfold take current
  rw [bind_apply, hpeek]
  dsimp only
  split
  · rename_i hkind
    rw [bind_apply, modify_apply]
    obtain ⟨arrived, out, hsupplies, hout, hdiagnostics, hend⟩ := hshows.feed
    have hahead := Stand.length_ahead_advance hkind
    refine ⟨_, rfl, ⟨?_, ⟨arrived, out, ?_, ?_, hdiagnostics, ?_⟩, ?_, hshows.deepStop,
      hshows.limit, hshows.statements, ?_, hshows.origin⟩⟩
    · intro n t ht
      rw [Stand.look_advance]
      exact hshows.window _ _ (by rwa [List.getElem?_tail] at ht)
    · have hdrop : p'.window.length - 1 + 1 = p'.window.length := by omega
      simpa [Stand.advance, hdrop] using hsupplies
    · rw [Stand.tokens_advance, hout]
    · intro hshort
      rw [List.length_tail] at hshort
      exact hend (by omega)
    · rw [Stand.behind_advance hkind, List.length_append, hshows.consumed]
      rfl
    · rw [Stand.tokens_advance]
      exact hshows.budget
  · rename_i hkind
    refine ⟨p', rfl, ?_⟩
    rwa [Stand.advance_of_nil (Stand.ahead_eq_nil (Decidable.not_not.mp hkind))]

theorem report_eq {p : Parser σ} {s : Stand} (h : p.Shows s) (span : Span) (message : String) :
    ∃ p', report (.error span message) p = (.ok (), p') ∧ p'.Shows (s.report span message) := by
  obtain ⟨arrived, out, hsupplies, hout, hdiagnostics, hend⟩ := h.feed
  obtain ⟨more, out', f', hpoll, rfl, hsupplies'⟩ := FaithfulFeed.poll_eq hsupplies
  unfold report
  rw [modify_apply]
  simp only [hpoll]
  refine ⟨_, rfl, ⟨h.window, ⟨arrived ++ more.toList, out', hsupplies', ?_, ?_, ?_⟩, h.consumed,
    h.deepStop, h.limit, h.statements, h.budget, h.origin⟩⟩
  · rw [List.append_assoc, hout]
    rfl
  · simpa [Parser.arrive, Stand.diagnostics, Stand.report] using
      (hdiagnostics.append_right more.toList).append_left [.error span message]
  · intro hshort
    exact (List.append_eq_nil_iff.mp (hend hshort)).2

theorem trace_eq {s : Stand} (t : Trace) (p : Parser σ) (hp : p.Shows s) :
    ∃ q, trace t p = (.ok (), q) ∧ q.Shows s :=
  ⟨_, rfl, hp.window, hp.feed, hp.consumed, hp.deepStop, hp.limit, hp.statements, hp.budget,
    hp.origin⟩

/-- From the stand `s`, `act` comes to an end with `Q`, unless it meets a literal that cannot be
converted. Then, too, the parser stands somewhere. -/
def Does {α : Type} (act : ParseM σ α) (s : Stand) (Q : α → Stand → Prop) : Prop :=
  ∀ p, p.Shows s →
    match act p with
    | (.ok a, p') => ∃ s', s'.tokens = s.tokens ∧ p'.Shows s' ∧ Q a s'
    | (.error fault, p') => (∃ s', p'.Shows s') ∧
      ∃ t ∈ s.tokens, t.kind = .number ∧ Rules.literalValue t.text = .error fault

section Does

variable {α β : Type} {s : Stand} {Q : α → Stand → Prop}

theorem does_of_eq {act : ParseM σ α} {a : α} {s' : Stand} (htokens : s'.tokens = s.tokens)
    (h : ∀ p, p.Shows s → ∃ p', act p = (.ok a, p') ∧ p'.Shows s') (hQ : Q a s') :
    Does act s Q := by
  intro p hp
  obtain ⟨p', hact, hshows⟩ := h p hp
  rw [hact]
  exact ⟨s', htokens, hshows, hQ⟩

theorem does_pure {a : α} (h : Q a s) : Does (pure a : ParseM σ α) s Q :=
  does_of_eq rfl (fun p hp => ⟨p, rfl, hp⟩) h

theorem does_bind {act : ParseM σ β} {k : β → ParseM σ α} {P : β → Stand → Prop}
    (hact : Does act s P) (hk : ∀ b s', s'.tokens = s.tokens → P b s' → Does (k b) s' Q) :
    Does (act >>= k) s Q := by
  intro p hp
  have hdone := hact p hp
  rw [bind_apply]
  rcases hresult : act p with ⟨result, p'⟩
  rw [hresult] at hdone
  cases result with
  | error fault => exact hdone
  | ok b =>
    obtain ⟨s', htokens, hshows, hP⟩ := hdone
    have hrest := hk b s' htokens hP p' hshows
    rw [htokens] at hrest
    exact hrest

theorem does_mono {act : ParseM σ α} {P : α → Stand → Prop} (h : Does act s P)
    (hPQ : ∀ a s', P a s' → Q a s') : Does act s Q := by
  intro p hp
  have hdone := h p hp
  rcases hresult : act p with ⟨result, p'⟩
  rw [hresult] at hdone
  cases result with
  | error fault => exact hdone
  | ok a =>
    obtain ⟨s', htokens, hshows, hP⟩ := hdone
    exact ⟨s', htokens, hshows, hPQ a s' hP⟩

theorem does_bind_of_eq {act : ParseM σ β} {k : β → ParseM σ α} {b : β} (s' : Stand)
    (htokens : s'.tokens = s.tokens) (h : ∀ p, p.Shows s → ∃ p', act p = (.ok b, p') ∧ p'.Shows s')
    (hk : Does (k b) s' Q) : Does (act >>= k) s Q :=
  does_bind (P := fun c t => c = b ∧ t = s') (does_of_eq htokens h ⟨rfl, rfl⟩)
    (fun _ _ _ hP => hP.1 ▸ hP.2 ▸ hk)

theorem does_get_bind {k : Parser σ → ParseM σ α} (hk : ∀ p, p.Shows s → Does (k p) s Q) :
    Does (get >>= k) s Q := by
  intro p hp
  exact hk p hp p hp

theorem does_rounds_bind {k : Nat → ParseM σ α}
    (hk : ∀ n, s.ahead.length < n → Does (k n) s Q) : Does (MonadParse.rounds >>= k) s Q := by
  intro p hp
  exact hk p.budget hp.length_lt p hp

theorem does_peek_bind {k : Token → ParseM σ α} (n : Nat) (hk : Does (k (s.look n)) s Q) :
    Does (peek n >>= k) s Q := by
  refine does_bind_of_eq s rfl (fun p hp => ?_) hk
  obtain ⟨p', hpeek, hshows, -⟩ := peek_eq hp n
  exact ⟨p', hpeek, hshows⟩

theorem does_current_bind {k : Token → ParseM σ α} (hk : Does (k s.head) s Q) :
    Does (current >>= k) s Q :=
  does_peek_bind 0 hk

theorem does_take_bind {k : Token → ParseM σ α} (hk : Does (k s.head) s.advance Q) :
    Does (take >>= k) s Q :=
  does_bind_of_eq _ s.tokens_advance (fun _ hp => take_eq hp) hk

theorem does_sees_bind {k : Bool → ParseM σ α} {kinds : List Kind}
    (hk : Does (k (kinds.contains s.head.kind)) s Q) : Does (sees kinds >>= k) s Q := by
  refine does_bind_of_eq s rfl (fun p hp => ?_) hk
  obtain ⟨p', hpeek, hshows, -⟩ := peek_eq hp 0
  unfold sees current
  rw [bind_apply, hpeek]
  exact ⟨p', rfl, hshows⟩

theorem does_report_bind {k : Unit → ParseM σ α} {span : Span} {message : String}
    (hk : Does (k ()) (s.report span message) Q) :
    Does (report (.error span message) >>= k) s Q :=
  does_bind_of_eq _ (s.tokens_report span message) (fun _ hp => report_eq hp span message) hk

theorem does_trace_bind {k : Unit → ParseM σ α} {t : Trace} (hk : Does (k ()) s Q) :
    Does (trace t >>= k) s Q :=
  does_bind_of_eq s rfl (trace_eq t) hk

end Does

end ParseM

end Abacus
