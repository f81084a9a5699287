import Abacus.Proofs.Parser.Alike
import Abacus.Proofs.Parser.Source

/-! Two parsers abreast. Where their texts differ in places only, they take the same turns, whatever
feeds them: they come to trees that differ in places only, or to the same fault. -/
namespace Abacus

namespace Stand

/-- `t` is `s` some tokens and reports further on. -/
structure Onward (s t : Stand) : Prop where
  used : ∃ used, s.ahead = used ++ t.ahead ∧ t.behind = s.behind ++ used
  limit : t.limit = s.limit
  reports : s.reports <+: t.reports
  origin : t.origin = s.origin

theorem onward_advance (s : Stand) : s.Onward s.advance :=
  ⟨s.leads_advance.used, rfl, List.prefix_rfl, rfl⟩

theorem onward_report (s : Stand) (span : Span) (message : String) :
    s.Onward (s.report span message) :=
  ⟨(s.leads_report span message).used, rfl, (s.leads_report span message).reports, rfl⟩

def stopped (s : Stand) (h : s.Deep) : Stand :=
  { s with deepStop := some s.behind.length, deepStop_reported := fun _ => h }

theorem onward_stopped (s : Stand) (h : s.Deep) : s.Onward (s.stopped h) :=
  ⟨⟨[], by simp [stopped]⟩, rfl, List.prefix_rfl, rfl⟩

theorem onward_keep (s : Stand) (stmt : Node) : s.Onward (s.keep stmt) :=
  ⟨⟨[], by simp⟩, s.limit_keep stmt, by simp, by unfold keep; split <;> rfl⟩

namespace Onward

theorem refl (s : Stand) : s.Onward s := ⟨(Leads.refl s).used, rfl, List.prefix_rfl, rfl⟩

theorem trans {s t u : Stand} (h : s.Onward t) (h' : t.Onward u) : s.Onward u := by
  obtain ⟨used, hahead, hbehind⟩ := h.used
  obtain ⟨used', hahead', hbehind'⟩ := h'.used
  refine ⟨⟨used ++ used', ?_, ?_⟩, h'.limit.trans h.limit, h.reports.trans h'.reports,
    h'.origin.trans h.origin⟩
  · rw [hahead, hahead', List.append_assoc]
  · rw [hbehind', hbehind, List.append_assoc]

theorem length_le {s t : Stand} (h : s.Onward t) : t.ahead.length ≤ s.ahead.length := by
  obtain ⟨used, hahead, -⟩ := h.used
  simp [hahead]

theorem tokens_eq {s t : Stand} (h : s.Onward t) : t.tokens = s.tokens := by
  obtain ⟨used, hahead, hbehind⟩ := h.used
  rw [tokens, tokens, hahead, hbehind, List.append_assoc]

theorem deep {s t : Stand} (h : s.Onward t) (hs : s.Deep) : t.Deep := by
  obtain ⟨x, hx, hmessage⟩ := hs
  exact ⟨x, h.reports.subset hx, by rw [hmessage, h.limit]⟩

end Onward

end Stand

namespace ParseM

variable {σ σ' : Type} [TokenFeed σ] [FaithfulFeed σ] [TokenFeed σ'] [FaithfulFeed σ']
  {α α' β β' : Type} {r : Relocation} {s s' : Stand} {Q : α → α' → Stand → Prop}

/-- From `s` and `s'` the two come to alike stands with `Q`, in step if they were, or to the same
fault. -/
def Abreast (r : Relocation) (act : ParseM σ α) (act' : ParseM σ' α') (s s' : Stand)
    (Q : α → α' → Stand → Prop) : Prop :=
  ∀ p p', p.Shows s → p'.Shows s' →
    (∃ a a' q q' t t', act p = (.ok a, q) ∧ act' p' = (.ok a', q') ∧ q.Shows t ∧ q'.Shows t' ∧
      t.Alike r t' ∧ s.Onward t ∧ s'.Onward t' ∧ (p.InStep r p' → q.InStep r q') ∧ Q a a' t) ∨
    ∃ fault q q' t t', act p = (.error fault, q) ∧ act' p' = (.error fault, q') ∧ q.Shows t ∧
      q'.Shows t'

theorem abreast_pure {a : α} {a' : α'} (h : s.Alike r s') (hQ : Q a a' s) :
    Abreast r (pure a : ParseM σ α) (pure a' : ParseM σ' α') s s' Q :=
  fun p p' hp hp' => .inl ⟨a, a', p, p', s, s', rfl, rfl, hp, hp', h, .refl s, .refl s', id, hQ⟩

theorem Abreast.after {act : ParseM σ α} {act' : ParseM σ' α'} {t t' : Stand} {p q : Parser σ}
    {p' q' : Parser σ'} (h : Abreast r act act' t t' Q) (hon : s.Onward t) (hon' : s'.Onward t')
    (hstep : p.InStep r p' → q.InStep r q') (hq : q.Shows t) (hq' : q'.Shows t') :
    (∃ a a' u u' v v', act q = (.ok a, u) ∧ act' q' = (.ok a', u') ∧ u.Shows v ∧ u'.Shows v' ∧
      v.Alike r v' ∧ s.Onward v ∧ s'.Onward v' ∧ (p.InStep r p' → u.InStep r u') ∧ Q a a' v) ∨
    ∃ fault u u' v v', act q = (.error fault, u) ∧ act' q' = (.error fault, u') ∧ u.Shows v ∧
      u'.Shows v' := by
  rcases h q q' hq hq' with ⟨a, a', u, u', v, v', ha, ha', hu, hu', hv, hv₁, hv₂, hv₃, hQ⟩ | hfault
  · exact .inl ⟨a, a', u, u', v, v', ha, ha', hu, hu', hv, hon.trans hv₁, hon'.trans hv₂,
      hv₃ ∘ hstep, hQ⟩
  · exact .inr hfault

theorem abreast_bind {act : ParseM σ β} {act' : ParseM σ' β'} {k : β → ParseM σ α}
    {k' : β' → ParseM σ' α'} {P : β → β' → Stand → Prop} (hact : Abreast r act act' s s' P)
    (hk : ∀ b b' t t', t.Alike r t' → s.Onward t → P b b' t → Abreast r (k b) (k' b') t t' Q) :
    Abreast r (act >>= k) (act' >>= k') s s' Q := by
  intro p p' hp hp'
  rw [bind_apply, bind_apply]
  rcases hact p p' hp hp' with
    ⟨b, b', q, q', t, t', hb, hb', hq, hq', ht, hon, hon', hstep, hP⟩ | hfault
  · rw [hb, hb']
    exact (hk b b' t t' ht hon hP).after hon hon' hstep hq hq'
  · obtain ⟨fault, q, q', t, t', hfault, hfault', hq, hq'⟩ := hfault
    rw [hfault, hfault']
    exact .inr ⟨fault, q, q', t, t', rfl, rfl, hq, hq'⟩

/-- Parsers that show `s` and `s'` stay in step. -/
def KeepsStep (r : Relocation) (act : ParseM σ α) (act' : ParseM σ' α') (s s' : Stand) : Prop :=
  ∀ p p', p.Shows s → p'.Shows s' → p.InStep r p' → (act p).2.InStep r (act' p').2

theorem abreast_of_eq {act : ParseM σ α} {act' : ParseM σ' α'} {a : α} {a' : α'} {t t' : Stand}
    (h : ∀ p, p.Shows s → ∃ q, act p = (.ok a, q) ∧ q.Shows t)
    (h' : ∀ p, p.Shows s' → ∃ q, act' p = (.ok a', q) ∧ q.Shows t')
    (hstep : KeepsStep r act act' s s') (ht : t.Alike r t') (hon : s.Onward t) (hon' : s'.Onward t')
    (hQ : Q a a' t) : Abreast r act act' s s' Q := by
  intro p p' hp hp'
  have hstep := hstep p p' hp hp'
  obtain ⟨q, ha, hq⟩ := h p hp
  obtain ⟨q', ha', hq'⟩ := h' p' hp'
  rw [ha, ha'] at hstep
  exact .inl ⟨a, a', q, q', t, t', ha, ha', hq, hq', ht, hon, hon', hstep, hQ⟩

theorem abreast_bind_of_eq {act : ParseM σ β} {act' : ParseM σ' β'} {k : β → ParseM σ α}
    {k' : β' → ParseM σ' α'} {b : β} {b' : β'} {t t' : Stand}
    (h : ∀ p, p.Shows s → ∃ q, act p = (.ok b, q) ∧ q.Shows t)
    (h' : ∀ p, p.Shows s' → ∃ q, act' p = (.ok b', q) ∧ q.Shows t')
    (hstep : KeepsStep r act act' s s') (hon : s.Onward t) (hon' : s'.Onward t')
    (hk : Abreast r (k b) (k' b') t t' Q) : Abreast r (act >>= k) (act' >>= k') s s' Q := by
  intro p p' hp hp'
  have hstep := hstep p p' hp hp'
  obtain ⟨q, hb, hq⟩ := h p hp
  obtain ⟨q', hb', hq'⟩ := h' p' hp'
  rw [hb, hb'] at hstep
  rw [bind_apply, bind_apply, hb, hb']
  exact hk.after hon hon' hstep hq hq'

theorem abreast_get_bind {k : Parser σ → ParseM σ α} {k' : Parser σ' → ParseM σ' α'}
    (hk : ∀ p p', p.Shows s → p'.Shows s' → Abreast r (k p) (k' p') s s' Q) :
    Abreast r (get >>= k) (get >>= k') s s' Q :=
  fun p p' hp hp' => hk p p' hp hp' p p' hp hp'

theorem abreast_rounds_bind {k : Nat → ParseM σ α} {k' : Nat → ParseM σ' α'} (h : s.Alike r s')
    (hk : ∀ n n', s.ahead.length < n → s.ahead.length < n' → Abreast r (k n) (k' n') s s' Q) :
    Abreast r (MonadParse.rounds >>= k) (MonadParse.rounds >>= k') s s' Q :=
  fun p p' hp hp' =>
    hk p.budget p'.budget hp.length_lt (h.length_ahead ▸ hp'.length_lt) p p' hp hp'

theorem abreast_peek_bind {k : Token → ParseM σ α} {k' : Token → ParseM σ' α'} (h : s.Alike r s')
    (n : Nat) (hk : Abreast r (k (s.look n)) (k' (s'.look n)) s s' Q) :
    Abreast r (peek n >>= k) (peek n >>= k') s s' Q := by
  refine abreast_bind_of_eq (fun p hp => ?_) (fun p hp => ?_)
    (fun _ _ hp hp' => inStep_peek h n hp hp') (.refl s) (.refl s') hk
  · obtain ⟨q, hpeek, hq, -⟩ := peek_eq hp n
    exact ⟨q, hpeek, hq⟩
  · obtain ⟨q, hpeek, hq, -⟩ := peek_eq hp n
    exact ⟨q, hpeek, hq⟩

theorem abreast_current_bind {k : Token → ParseM σ α} {k' : Token → ParseM σ' α'}
    (h : s.Alike r s') (hk : Abreast r (k s.head) (k' s'.head) s s' Q) :
    Abreast r (current >>= k) (current >>= k') s s' Q :=
  abreast_peek_bind h 0 hk

theorem abreast_take_bind {k : Token → ParseM σ α} {k' : Token → ParseM σ' α'}
    (h : s.Alike r s') (hk : Abreast r (k s.head) (k' s'.head) s.advance s'.advance Q) :
    Abreast r (take >>= k) (take >>= k') s s' Q :=
  abreast_bind_of_eq (fun _ hp => take_eq hp) (fun _ hp => take_eq hp)
    (fun _ _ hp hp' => inStep_take h hp hp') s.onward_advance s'.onward_advance hk

theorem abreast_sees_bind {k : Bool → ParseM σ α} {k' : Bool → ParseM σ' α'} {kinds : List Kind}
    (h : s.Alike r s')
    (hk : Abreast r (k (kinds.contains s.head.kind)) (k' (kinds.contains s.head.kind)) s s' Q) :
    Abreast r (sees kinds >>= k) (sees kinds >>= k') s s' Q := by
  unfold sees
  rw [bind_assoc, bind_assoc]
  apply abreast_current_bind h
  rw [pure_bind, pure_bind, ← h.kind_head]
  exact hk

theorem abreast_report_bind {k : Unit → ParseM σ α} {k' : Unit → ParseM σ' α'} {span span' : Span}
    {message : String} (hspan : span.relocate r = span'.relocate r)
    (hk : Abreast r (k ()) (k' ()) (s.report span message) (s'.report span' message) Q) :
    Abreast r (report (.error span message) >>= k) (report (.error span' message) >>= k') s s' Q :=
  abreast_bind_of_eq (fun _ hp => report_eq hp span message)
    (fun _ hp => report_eq hp span' message)
    (fun _ _ hp hp' hstep => inStep_report hp hp' hstep hspan message)
    (s.onward_report span message) (s'.onward_report span' message) hk

theorem abreast_trace_bind {k : Unit → ParseM σ α} {k' : Unit → ParseM σ' α'} {t t' : Trace}
    (hk : Abreast r (k ()) (k' ()) s s' Q) :
    Abreast r (trace t >>= k) (trace t' >>= k') s s' Q :=
  abreast_bind_of_eq (trace_eq t) (trace_eq t') (fun _ _ _ _ hstep => { hstep with }) (.refl s)
    (.refl s') hk

theorem abreast_expect (h : s.Alike r s') (kind : Kind) :
    Abreast r (expect kind none : ParseM σ Token) (expect kind none : ParseM σ' Token) s s'
      fun t t' _ => t.relocate r = t'.relocate r := by
  unfold expect
  apply abreast_sees_bind h
  split
  · exact abreast_of_eq (fun _ hp => take_eq hp) (fun _ hp => take_eq hp)
      (fun _ _ hp hp' => inStep_take h hp hp') h.advance s.onward_advance s'.onward_advance h.head
  · apply abreast_current_bind h
    dsimp only
    rw [← h.kind_head]
    apply abreast_report_bind (Token.span_eq_of_relocate h.head)
    apply abreast_trace_bind
    refine abreast_pure (h.report (Token.span_eq_of_relocate h.head) _) ?_
    have hstart := congrArg Span.start (Token.span_eq_of_relocate h.head)
    simp only [Span.relocate] at hstart
    simp [Token.empty, Token.relocate, Span.relocate, Span.at, hstart]

theorem abreast_progress_bind {s₀ s₀' : Stand} {k : Unit → ParseM σ α} {k' : Unit → ParseM σ' α'}
    (h₀ : s₀.Alike r s₀') (h : s.Alike r s') (hon : s₀.Onward s) (hkind : s₀.head.kind ≠ .eof)
    (hk : ∀ t t', t.Alike r t' → t.ahead.length < s₀.ahead.length →
      Abreast r (k ()) (k' ()) t t' Q) :
    Abreast r (progress s₀.behind.length >>= k) (progress s₀'.behind.length >>= k') s s' Q := by
  have hpos := Stand.length_ahead_advance hkind
  obtain ⟨used, hahead, hbehind⟩ := hon.used
  have hlength := congrArg List.length hahead
  rw [List.length_append] at hlength
  unfold progress
  simp only [bind_assoc]
  apply abreast_current_bind h
  apply abreast_get_bind
  intro p p' hp hp'
  rw [hp.consumed, hp'.consumed, ← h.length_behind, ← h₀.length_behind]
  split
  · rename_i hsame
    rw [hbehind, List.length_append] at hsame
    simp only [bind_assoc]
    apply abreast_take_bind h
    apply abreast_trace_bind
    apply hk _ _ h.advance
    rw [Stand.advance, Stand.ahead_skip, List.length_drop]
    omega
  · rename_i hmoved
    rw [hbehind, List.length_append] at hmoved
    rw [pure_bind, pure_bind]
    exact hk _ _ h (by omega)

end ParseM

theorem Node.offset_startOr_eq {r : Relocation} {left left' : Node} {t t' : Token}
    (hleft : left.relocate r = left'.relocate r) (ht : t.relocate r = t'.relocate r) :
    r.offset ((left.anchor?.map (·.offset)).getD t.offset) =
      r.offset ((left'.anchor?.map (·.offset)).getD t'.offset) := by
  have hanchor := congrArg (fun n : Node => n.anchor?.map (·.offset)) hleft
  simp only [anchor?_relocate, Option.map_map, Function.comp_def, Anchor.relocate] at hanchor
  simp only [← Option.getD_map r.offset, Option.map_map, Function.comp_def, hanchor,
    Token.offset_eq_of_relocate ht]

namespace Rules.Link

def relocate (r : Relocation) (l : Link) : Link where
  word := l.word.relocate r
  condition := l.condition.relocate r
  body := l.body.relocate r
  elseWord := l.elseWord.map (·.relocate r)

theorem relocate_clause (r : Relocation) (l : Link) (body : Node) :
    (l.clause body).relocate r = (l.relocate r).clause (body.relocate r) := by
  unfold clause relocate
  cases l.elseWord with
  | none => rfl
  | some word =>
    simp [Node.relocate, Anchor.relocate, Token.offset, Span.relocate, r.offset_location]

theorem relocate_wire (r : Relocation) (wired : Node × Node) (l : Link) :
    (wire wired l).map (·.relocate r) (·.relocate r) =
      wire (wired.map (·.relocate r) (·.relocate r)) (l.relocate r) := by
  have hsome : (l.relocate r).elseWord.isSome = l.elseWord.isSome := by simp [relocate]
  simp only [wire, Prod.map, Node.isMissing_relocate, hsome]
  split <;> simp [relocate, Node.relocate, Anchor.relocate, Token.offset, Span.relocate,
    r.offset_location, relocate_clause]

theorem relocate_foldl_wire {r : Relocation} {links links' : List Link} {wired wired' : Node × Node}
    (hlinks : links.map (relocate r) = links'.map (relocate r))
    (h : wired.map (·.relocate r) (·.relocate r) = wired'.map (·.relocate r) (·.relocate r)) :
    (links.foldl wire wired).map (·.relocate r) (·.relocate r) =
      (links'.foldl wire wired').map (·.relocate r) (·.relocate r) := by
  have hmap (links : List Link) (wired : Node × Node) :
      (links.foldl wire wired).map (·.relocate r) (·.relocate r) =
        (links.map (relocate r)).foldl wire (wired.map (·.relocate r) (·.relocate r)) := by
    induction links generalizing wired with
    | nil => rfl
    | cons l rest ih => rw [List.foldl_cons, ih, relocate_wire, List.map_cons, List.foldl_cons]
  rw [hmap, hmap, hlinks, h]

end Rules.Link

namespace Rules

open ParseM

variable {σ σ' : Type} [TokenFeed σ] [FaithfulFeed σ] [TokenFeed σ'] [FaithfulFeed σ']
  {r : Relocation} {s s' : Stand}

def Made (r : Relocation) (a a' : Node) (_ : Stand) : Prop := a.relocate r = a'.relocate r

/-- The fuel may differ, as long as there is enough of it on either side. -/
theorem abreast_skipRegion {fuel fuel' : Nat} (balance : Nat) (h : s.Alike r s')
    (hfuel : s.ahead.length < fuel) (hfuel' : s.ahead.length < fuel') :
    Abreast r (skipRegion fuel balance : ParseM σ Unit) (skipRegion fuel' balance : ParseM σ' Unit)
      s s' fun _ _ _ => True := by
  induction fuel generalizing fuel' s s' balance with
  | zero => omega
  | succ fuel ih =>
    cases fuel' with
    | zero => omega
    | succ fuel' =>
      have hstep (hkind : s.head.kind ≠ .eof) (b : Nat) :
          Abreast r (do let _ ← take; skipRegion fuel b : ParseM σ Unit)
            (do let _ ← take; skipRegion fuel' b : ParseM σ' Unit) s s' fun _ _ _ => True := by
        have hlength := Stand.length_ahead_advance hkind
        exact abreast_take_bind h (ih b h.advance (by omega) (by omega))
      unfold skipRegion
      apply abreast_current_bind h
      rw [← h.kind_head]
      split
      · exact abreast_pure h trivial
      · exact hstep (by simp [*]) _
      · exact hstep (by simp [*]) _
      · split
        · exact abreast_pure h trivial
        · exact hstep (by simp [*]) _
      · split
        · exact abreast_pure h trivial
        · exact hstep (by simp [*]) _
      · exact hstep (by assumption) _

omit [FaithfulFeed σ'] in
theorem stop_eq {t : Stand} (hdeep : t.Deep) (p : Parser σ) (hp : p.Shows t) :
    ∃ q, (modify fun p => { p with deepStop := some p.consumed } : ParseM σ Unit) p = (.ok (), q) ∧
      q.Shows (t.stopped hdeep) :=
  ⟨{ p with deepStop := some p.consumed }, rfl,
    ⟨hp.window, hp.feed, hp.consumed, congrArg some hp.consumed, hp.limit, hp.statements, hp.budget,
      hp.origin⟩⟩

theorem abreast_tooDeep (h : s.Alike r s') :
    Abreast r (tooDeep : ParseM σ Node) (tooDeep : ParseM σ' Node) s s' (Made r) := by
  unfold tooDeep
  apply abreast_current_bind h
  apply abreast_get_bind
  intro p p' hp hp'
  rw [hp.deepStop, hp.consumed, hp.limit, hp'.deepStop, hp'.consumed, hp'.limit, ← h.deepStop,
    ← h.length_behind, ← h.limit]
  split
  · exact abreast_pure h rfl
  · apply abreast_report_bind (Token.span_eq_of_relocate h.head)
    have hreport := h.report (Token.span_eq_of_relocate h.head) (deepMessage s.limit)
    apply abreast_rounds_bind hreport
    intro rounds rounds' hrounds hrounds'
    refine abreast_bind (abreast_skipRegion 0 hreport hrounds hrounds') ?_
    intro _ _ t t' ht hon _
    apply abreast_current_bind ht
    have hdeep : t.Deep := hon.deep ⟨_, List.mem_append_right _ (List.mem_singleton_self _), rfl⟩
    have hdeep' := ht.deep hdeep
    refine abreast_bind_of_eq (stop_eq hdeep) (stop_eq hdeep')
      (fun _ _ _ _ hstep => { hstep with }) (t.onward_stopped hdeep) (t'.onward_stopped hdeep')
      (abreast_trace_bind (abreast_pure ?_ rfl))
    exact { ht with deepStop := congrArg some ht.length_behind }

theorem abreast_skipBad {fuel fuel' : Nat} (skipped : Bool) (h : s.Alike r s')
    (hfuel : s.ahead.length < fuel) (hfuel' : s.ahead.length < fuel') :
    Abreast r (skipBad fuel skipped : ParseM σ Bool) (skipBad fuel' skipped : ParseM σ' Bool)
      s s' fun b b' _ => b = b' := by
  induction fuel generalizing fuel' s s' skipped with
  | zero => omega
  | succ fuel ih =>
    cases fuel' with
    | zero => omega
    | succ fuel' =>
      unfold skipBad
      apply abreast_sees_bind h
      split
      · rename_i hbad
        have hkind : s.head.kind ≠ .eof := by
          intro heof
          simp [heof] at hbad
        have hlength := Stand.length_ahead_advance hkind
        exact abreast_take_bind h (ih true h.advance (by omega) (by omega))
      · exact abreast_pure h rfl

theorem abreast_numberLiteral (h : s.Alike r s') :
    Abreast r (numberLiteral : ParseM σ Node) (numberLiteral : ParseM σ' Node) s s' (Made r) := by
  unfold numberLiteral
  apply abreast_take_bind h
  rw [← Token.text_eq_of_relocate h.head]
  cases literalValue s.head.text with
  | error fault => exact fun p p' hp hp' => .inr ⟨fault, p, p', _, _, rfl, rfl, hp, hp'⟩
  | ok value =>
    show Abreast r (if Word.max < (value : Int) then _ else _ : ParseM σ Node)
      (if Word.max < (value : Int) then _ else _ : ParseM σ' Node) _ _ _
    have hmade (t : Stand) :
        Made r (.number ⟨s.head.offset, true⟩ s.head (min (value : Int) Word.max))
          (.number ⟨s'.head.offset, true⟩ s'.head (min (value : Int) Word.max)) t := by
      simp [Made, Node.relocate, Anchor.relocate, h.head, Token.offset_eq_of_relocate h.head]
    split
    · apply abreast_report_bind (Token.span_eq_of_relocate h.head)
      exact abreast_pure (h.advance.report (Token.span_eq_of_relocate h.head) _) (hmade _)
    · exact abreast_pure h.advance (hmade _)

theorem abreast_booleanLiteral (h : s.Alike r s') :
    Abreast r (booleanLiteral : ParseM σ Node) (booleanLiteral : ParseM σ' Node) s s' (Made r) := by
  unfold booleanLiteral
  apply abreast_take_bind h
  apply abreast_pure h.advance
  simp [Made, Node.relocate, Anchor.relocate, h.head, Token.offset_eq_of_relocate h.head,
    h.kind_head]

theorem abreast_identifier (h : s.Alike r s') :
    Abreast r (identifier : ParseM σ Node) (identifier : ParseM σ' Node) s s' (Made r) := by
  unfold identifier
  apply abreast_take_bind h
  apply abreast_pure h.advance
  simp [Made, Node.relocate, Anchor.relocate, h.head, Token.offset_eq_of_relocate h.head]

theorem abreast_noOperand (skipped : Bool) (h : s.Alike r s') :
    Abreast r (noOperand skipped s.head : ParseM σ Node) (noOperand skipped s'.head : ParseM σ' Node)
      s s' (Made r) := by
  have hfinish {t t' : Stand} (ht : t.Alike r t') :
      Abreast r (if !isCloser s.head.kind then (do
          let _ ← take
          return .missing)
        else return .missing : ParseM σ Node)
        (if !isCloser s.head.kind then (do
          let _ ← take
          return .missing)
        else return .missing : ParseM σ' Node) t t' (Made r) := by
    split
    · exact abreast_take_bind ht (abreast_pure ht.advance rfl)
    · exact abreast_pure ht rfl
  unfold noOperand
  rw [← h.kind_head]
  cases skipped with
  | true => exact hfinish h
  | false =>
    have hspan := Token.span_eq_of_relocate h.head
    exact abreast_report_bind hspan (hfinish (h.report hspan _))

structure Abreast (r : Relocation) (inner : Rules (ParseM σ)) (inner' : Rules (ParseM σ')) : Prop where
  statement : ∀ {s s'}, s.Alike r s' →
    ParseM.Abreast r inner.statement inner'.statement s s' (Made r)
  expression : ∀ parent {s s'}, s.Alike r s' →
    ParseM.Abreast r (inner.expression parent) (inner'.expression parent) s s' (Made r)

section Abreast

variable {inner : Rules (ParseM σ)} {inner' : Rules (ParseM σ')} (hinner : inner.Abreast r inner')

include hinner

theorem abreast_parenthesized (h : s.Alike r s') :
    ParseM.Abreast r (parenthesized inner) (parenthesized inner') s s' (Made r) := by
  unfold parenthesized
  apply abreast_take_bind h
  refine abreast_bind (hinner.expression 0 h.advance) fun e e' t t' ht _ he => ?_
  refine abreast_bind (abreast_expect ht .rparen) fun rparen rparen' u u' hu _ hparen => ?_
  apply abreast_pure hu
  simp only [Made] at he
  simp [Made, Node.relocate, Anchor.relocate, h.head, Token.offset_eq_of_relocate h.head, he,
    hparen]

theorem abreast_assignment (h : s.Alike r s') :
    ParseM.Abreast r (assignment inner) (assignment inner') s s' (Made r) := by
  unfold assignment
  apply abreast_take_bind h
  apply abreast_take_bind h.advance
  refine abreast_bind (hinner.expression 0 h.advance.advance) fun e e' t t' ht _ he => ?_
  apply abreast_pure ht
  simp only [Made] at he
  simp [Made, Node.relocate, Anchor.relocate, h.head, h.advance.head,
    Token.offset_eq_of_relocate h.head, he]

theorem abreast_primary (h : s.Alike r s') :
    ParseM.Abreast r (primary inner) (primary inner') s s' (Made r) := by
  unfold primary
  apply abreast_rounds_bind h
  intro rounds rounds' hrounds hrounds'
  refine abreast_bind (abreast_skipBad false h hrounds hrounds') ?_
  rintro skipped _ t t' ht - rfl
  apply abreast_current_bind ht
  rw [← ht.kind_head]
  split
  · exact abreast_numberLiteral ht
  · exact abreast_booleanLiteral ht
  · exact abreast_booleanLiteral ht
  · exact abreast_parenthesized hinner ht
  · apply abreast_peek_bind ht
    rw [← ht.kind_look]
    split
    · exact abreast_assignment hinner ht
    · exact abreast_identifier ht
  · exact abreast_noOperand skipped ht

theorem abreast_operand (parent : Nat) (h : s.Alike r s') :
    ParseM.Abreast r (operand inner parent) (operand inner' parent) s s' (Made r) := by
  unfold operand
  apply abreast_current_bind h
  dsimp only
  rw [← h.kind_head]
  split
  · apply abreast_take_bind h
    refine abreast_bind (hinner.expression _ h.advance) fun e e' t t' ht _ he => ?_
    apply abreast_pure ht
    simp only [Made] at he
    simp [Made, Node.relocate, Anchor.relocate, h.head, Token.offset_eq_of_relocate h.head, he]
  · exact abreast_primary hinner h

theorem abreast_operators (parent : Nat) {fuel fuel' : Nat} {left left' : Node}
    (hleft : left.relocate r = left'.relocate r) (h : s.Alike r s') (hfuel : s.ahead.length < fuel)
    (hfuel' : s.ahead.length < fuel') :
    ParseM.Abreast r (operators inner parent fuel left) (operators inner' parent fuel' left') s s'
      (Made r) := by
  induction fuel generalizing fuel' s s' left left' with
  | zero => omega
  | succ fuel ih =>
    cases fuel' with
    | zero => omega
    | succ fuel' =>
      unfold operators
      apply abreast_current_bind h
      dsimp only
      rw [← h.kind_head]
      split
      · exact abreast_pure h hleft
      · rename_i hoperator
        have hkind : s.head.kind ≠ .eof := by
          intro heof
          simp [heof, Kind.binaryPrecedence] at hoperator
        have hlength := Stand.length_ahead_advance hkind
        apply abreast_take_bind h
        refine abreast_bind (hinner.expression _ h.advance)
          fun right right' t t' ht hon hright => ?_
        have hle := hon.length_le
        refine ih ?_ ht (by omega) (by omega)
        simp only [Made] at hright
        simp [Node.relocate, Anchor.relocate, hleft, hright, h.head,
          Node.offset_startOr_eq hleft h.head]

theorem abreast_expressionBody (parent : Nat) (h : s.Alike r s') :
    ParseM.Abreast r (expressionBody inner parent) (expressionBody inner' parent) s s'
      (Made r) := by
  unfold expressionBody
  refine abreast_bind (abreast_operand hinner parent h) fun left left' t t' ht _ hleft => ?_
  apply abreast_rounds_bind ht
  intro rounds rounds' hrounds hrounds'
  exact abreast_operators hinner parent hleft ht hrounds hrounds'

theorem abreast_blockItems {fuel fuel' : Nat} {done done' : List Node}
    (hdone : Node.relocateAll r done = Node.relocateAll r done') (h : s.Alike r s')
    (hfuel : s.ahead.length < fuel) (hfuel' : s.ahead.length < fuel') :
    ParseM.Abreast r (blockItems inner fuel done) (blockItems inner' fuel' done') s s'
      fun body body' _ => Node.relocateAll r body = Node.relocateAll r body' := by
  induction fuel generalizing fuel' s s' done done' with
  | zero => omega
  | succ fuel ih =>
    cases fuel' with
    | zero => omega
    | succ fuel' =>
      unfold blockItems
      apply abreast_sees_bind h
      split
      · apply abreast_pure h
        simpa [Node.relocateAll_eq_map] using hdone
      · rename_i hopen
        have hkind : s.head.kind ≠ .eof := by
          intro heof
          simp [heof] at hopen
        apply abreast_get_bind
        intro p p' hp hp'
        rw [hp.consumed, hp'.consumed]
        refine abreast_bind (hinner.statement h) fun stmt stmt' t t' ht hon hstmt => ?_
        refine abreast_progress_bind h ht hon hkind fun u u' hu hlt => ?_
        refine ih ?_ hu (by omega) (by omega)
        rw [Node.isMissing_eq_of_relocate hstmt]
        split
        · exact hdone
        · rw [Node.relocateAll, Node.relocateAll, hdone, hstmt]

theorem abreast_block (h : s.Alike r s') :
    ParseM.Abreast r (block inner) (block inner') s s' (Made r) := by
  unfold block
  refine abreast_bind (abreast_expect h .lbrace) fun lbrace lbrace' t t' ht _ hlbrace => ?_
  apply abreast_rounds_bind ht
  intro rounds rounds' hrounds hrounds'
  refine abreast_bind (abreast_blockItems hinner rfl ht hrounds hrounds') ?_
  intro body body' u u' hu _ hbody
  refine abreast_bind (abreast_expect hu .rbrace) fun rbrace rbrace' v v' hv _ hrbrace => ?_
  apply abreast_pure hv
  simp [Made, Node.relocate, Anchor.relocate, hlbrace, hbody, hrbrace,
    Token.offset_eq_of_relocate hlbrace]

theorem abreast_declaration (h : s.Alike r s') :
    ParseM.Abreast r (declaration inner) (declaration inner') s s' (Made r) := by
  unfold declaration
  refine abreast_bind (abreast_expect h .ident) fun name name' t t' ht _ hname => ?_
  refine abreast_bind (abreast_expect ht .declare) fun sign sign' u u' hu _ hsign => ?_
  refine abreast_bind (hinner.expression 0 hu) fun init init' v v' hv _ hinit => ?_
  apply abreast_pure hv
  simp only [Made] at hinit
  simp [Made, Node.relocate, Anchor.relocate, hname, hsign, hinit,
    Token.offset_eq_of_relocate hname]

theorem abreast_typedDeclaration (h : s.Alike r s') :
    ParseM.Abreast r (typedDeclaration inner) (typedDeclaration inner') s s' (Made r) := by
  unfold typedDeclaration
  apply abreast_take_bind h
  refine abreast_bind (abreast_expect h.advance .ident) fun name name' t t' ht _ hname => ?_
  refine abreast_bind (abreast_expect ht .assign) fun sign sign' u u' hu _ hsign => ?_
  refine abreast_bind (hinner.expression 0 hu) fun init init' v v' hv _ hinit => ?_
  apply abreast_pure hv
  simp only [Made] at hinit
  simp [Made, Node.relocate, Anchor.relocate, h.head, hname, hsign, hinit,
    Token.offset_eq_of_relocate h.head]

/-- The links collected so far may differ in places, too. -/
theorem abreast_links {fuel fuel' : Nat} {done done' : List Link}
    (hdone : done.map (Link.relocate r) = done'.map (Link.relocate r)) (h : s.Alike r s')
    (hfuel : s.ahead.length < fuel) (hfuel' : s.ahead.length < fuel') :
    ParseM.Abreast r (links inner fuel done) (links inner' fuel' done') s s' fun x x' _ =>
      x.1.map (Link.relocate r) = x'.1.map (Link.relocate r) ∧
        x.2.relocate r = x'.2.relocate r := by
  induction fuel generalizing fuel' s s' done done' with
  | zero => omega
  | succ fuel ih =>
    cases fuel' with
    | zero => omega
    | succ fuel' =>
      unfold links
      refine abreast_bind (abreast_expect h .ifWord) fun word word' t t' ht hon hword => ?_
      refine abreast_bind (hinner.expression 0 ht) fun c c' u u' hu hon' hc => ?_
      refine abreast_bind (hinner.statement hu) fun b b' v v' hv hon'' hb => ?_
      have hle := ((hon.trans hon').trans hon'').length_le
      simp only [Made] at hc hb
      apply abreast_sees_bind hv
      split
      · rename_i helse
        have hkind : v.head.kind ≠ .eof := by
          intro heof
          simp [heof] at helse
        have hlength := Stand.length_ahead_advance hkind
        apply abreast_take_bind hv
        apply abreast_sees_bind hv.advance
        split
        · refine ih ?_ hv.advance (by omega) (by omega)
          simp [Link.relocate, hdone, hword, hc, hb, hv.head]
        · refine abreast_bind (hinner.statement hv.advance) fun e e' x x' hx _ he => ?_
          apply abreast_pure hx
          simp only [Made] at he
          simp [Link.relocate, Link.relocate_clause, hdone, hword, hc, hb, he, hv.head]
      · apply abreast_pure hv
        simp [Link.relocate, hdone, hword, hc, hb]

theorem abreast_ifStatement (h : s.Alike r s') :
    ParseM.Abreast r (ifStatement inner) (ifStatement inner') s s' (Made r) := by
  unfold ifStatement
  apply abreast_rounds_bind h
  intro rounds rounds' hrounds hrounds'
  refine abreast_bind (abreast_links hinner rfl h hrounds hrounds') ?_
  intro x x' t t' ht _ hx
  apply abreast_pure ht
  exact congrArg Prod.fst (Link.relocate_foldl_wire hx.1 (by simp [hx.2]))

theorem abreast_statementBody (h : s.Alike r s') :
    ParseM.Abreast r (statementBody inner) (statementBody inner') s s' (Made r) := by
  unfold statementBody
  apply abreast_current_bind h
  rw [← h.kind_head]
  split
  · exact abreast_ifStatement hinner h
  · exact abreast_block hinner h
  · exact abreast_typedDeclaration hinner h
  · exact abreast_typedDeclaration hinner h
  · apply abreast_peek_bind h
    rw [← h.kind_look]
    split
    · exact abreast_declaration hinner h
    · exact hinner.expression 0 h
  · exact hinner.expression 0 h

end Abreast

theorem abreast_within (r : Relocation) (n : Nat) :
    (within n : Rules (ParseM σ)).Abreast r (within n : Rules (ParseM σ')) := by
  induction n with
  | zero => exact ⟨abreast_tooDeep, fun _ => abreast_tooDeep⟩
  | succ n ih => exact ⟨abreast_statementBody ih, fun parent => abreast_expressionBody ih parent⟩

end Rules

namespace ParseM

open Rules (statements)

variable {σ σ' : Type} [TokenFeed σ] [FaithfulFeed σ] [TokenFeed σ'] [FaithfulFeed σ']
  {r : Relocation} {s s' : Stand} {rules : Rules (ParseM σ)} {rules' : Rules (ParseM σ')}

theorem abreast_statementStep (hrules : rules.Abreast r rules') (h : s.Alike r s')
    (hkind : s.head.kind ≠ .eof) :
    Abreast r (statementStep rules) (statementStep rules') s s'
      fun _ _ t => t.ahead.length < s.ahead.length := by
  unfold statementStep
  apply abreast_get_bind
  intro p p' hp hp'
  rw [hp.consumed, hp'.consumed]
  refine abreast_bind (hrules.statement h) fun stmt stmt' t t' ht hon hstmt => ?_
  have hprogress {u u' : Stand} (hu : u.Alike r u') (hon : s.Onward u) :
      Abreast r (progress s.behind.length : ParseM σ Unit)
        (progress s'.behind.length : ParseM σ' Unit) u u'
        fun _ _ v => v.ahead.length < s.ahead.length := by
    rw [← bind_pure (progress s.behind.length), ← bind_pure (progress s'.behind.length)]
    exact abreast_progress_bind h hu hon hkind fun v v' hv hlt => abreast_pure hv hlt
  have hsame := Node.isMissing_eq_of_relocate hstmt
  rw [← hsame]
  cases hmissing : stmt.isMissing with
  | true => exact hprogress ht hon
  | false =>
    exact abreast_bind_of_eq (keep_eq hmissing) (keep_eq (hsame ▸ hmissing))
      (fun _ _ _ _ hstep => { hstep with }) (t.onward_keep stmt) (t'.onward_keep stmt')
      (hprogress (ht.keep hstmt) (hon.trans (t.onward_keep stmt)))

/-- At the end both windows hold the end of the source, which has been looked at last. -/
theorem statements_abreast (hrules : rules.Abreast r rules') {fuel fuel' : Nat} (h : s.Alike r s')
    (hfuel : s.ahead.length < fuel) (hfuel' : s.ahead.length < fuel') {p : Parser σ}
    {p' : Parser σ'} (hp : p.Shows s) (hp' : p'.Shows s') :
    (∃ q q' t t', statements rules fuel p = (.ok (), q) ∧
      statements rules' fuel' p' = (.ok (), q') ∧ q.Shows t ∧ q'.Shows t' ∧ t.Alike r t' ∧
      s.Onward t ∧ s'.Onward t' ∧ (p.InStep r p' → q.InStep r q') ∧ t.ahead = [] ∧
      0 < q.window.length ∧ 0 < q'.window.length) ∨
    ∃ fault q q' t t', statements rules fuel p = (.error fault, q) ∧
      statements rules' fuel' p' = (.error fault, q') ∧ q.Shows t ∧ q'.Shows t' := by
  induction fuel generalizing fuel' s s' p p' with
  | zero => omega
  | succ fuel ih =>
    cases fuel' with
    | zero => omega
    | succ fuel' =>
      have hstep := inStep_sees h [.eof] hp hp'
      obtain ⟨p₁, hsees, hp₁, hwindow⟩ := sees_eq [.eof] hp
      obtain ⟨p₁', hsees', hp₁', hwindow'⟩ := sees_eq [.eof] hp'
      rw [hsees, hsees'] at hstep
      rw [statements_succ, statements_succ, bind_apply, bind_apply, hsees, hsees', ← h.kind_head]
      by_cases heof : s.head.kind = .eof
      · simp only [heof, List.contains_cons, BEq.rfl, Bool.true_or, if_true]
        exact .inl ⟨p₁, p₁', s, s', rfl, rfl, hp₁, hp₁', h, .refl s, .refl s', hstep,
          Stand.ahead_eq_nil heof, hwindow, hwindow'⟩
      · have hgoes : [Kind.eof].contains s.head.kind = false := by simp [heof]
        simp only [hgoes, Bool.false_eq_true, if_false]
        rw [bind_apply, bind_apply]
        rcases abreast_statementStep hrules h heof p₁ p₁' hp₁ hp₁' with hread | hfault
        · obtain ⟨_, _, q, q', t, t', hread, hread', hq, hq', ht, hon, hon', hstep₁, hlt⟩ := hread
          rw [hread, hread']
          dsimp only
          have hfuel₁ : t.ahead.length < fuel' := by omega
          rcases ih ht (by omega) hfuel₁ hq hq' with hdone | hfault
          · obtain ⟨u, u', v, v', hu, hu', hv, hv', hvv, hon₁, hon₁', hstep₂, hend⟩ := hdone
            exact .inl ⟨u, u', v, v', hu, hu', hv, hv', hvv, hon.trans hon₁, hon'.trans hon₁',
              fun h => hstep₂ (hstep₁ (hstep h)), hend⟩
          · exact .inr hfault
        · obtain ⟨fault, q, q', t, t', hread, hread', hq, hq'⟩ := hfault
          rw [hread, hread']
          exact .inr ⟨fault, q, q', t, t', rfl, rfl, hq, hq'⟩

theorem program_abreast (h : s.Alike r s') {p : Parser σ} {p' : Parser σ'} (hp : p.Shows s)
    (hp' : p'.Shows s') (hparsed : p.parsed = false) (hparsed' : p'.parsed = false) :
    (∃ (q : Parser σ) (q' : Parser σ') (t t' : Stand),
      program p = (.ok (), q) ∧ program p' = (.ok (), q') ∧ t.Alike r t' ∧
      q.tree = ⟨s.origin.1, s.origin.2, t.statements⟩ ∧
      q'.tree = ⟨s'.origin.1, s'.origin.2, t'.statements⟩ ∧
      Interleaves t.diagnostics (complaintsOf s.tokens) q.diagnostics.toList ∧
      Interleaves t'.diagnostics (complaintsOf s'.tokens) q'.diagnostics.toList ∧
      (p.InStep r p' → q.diagnostics.toList.map (·.relocate r) =
        q'.diagnostics.toList.map (·.relocate r))) ∨
    ∃ fault q q', program p = (.error fault, q) ∧ program p' = (.error fault, q') := by
  have hrules : (Rules.within s.limit : Rules (ParseM σ)).Abreast r
      (Rules.within s'.limit : Rules (ParseM σ')) :=
    h.limit ▸ Rules.abreast_within r s.limit
  rcases statements_abreast hrules h hp.length_lt (h.length_ahead ▸ hp'.length_lt) hp hp' with
    hread | hfault
  · obtain ⟨q, q', t, t', hread, hread', hq, hq', ht, hon, hon', hstep, hend, hwindow, hwindow'⟩ :=
      hread
    have hend' : t'.ahead = [] :=
      List.eq_nil_of_length_eq_zero (by rw [← ht.length_ahead, hend]; rfl)
    obtain ⟨u, hprogram, htree, hsame, hdiagnostics⟩ :=
      program_of_ok hp hparsed hq hread hend hwindow
    obtain ⟨u', hprogram', htree', hsame', hdiagnostics'⟩ :=
      program_of_ok hp' hparsed' hq' hread' hend' hwindow'
    rw [hon.origin] at htree
    rw [hon'.origin] at htree'
    rw [hon.tokens_eq] at hdiagnostics
    rw [hon'.tokens_eq] at hdiagnostics'
    refine .inl ⟨u, u', t, t', hprogram, hprogram', ht, htree, htree', hdiagnostics, hdiagnostics',
      fun h => ?_⟩
    rw [hsame, hsame']
    exact (hstep h).diagnostics
  · obtain ⟨fault, q, q', t, t', hfault, hfault', hq, hq'⟩ := hfault
    obtain ⟨u, hprogram⟩ := program_of_error hp hparsed hq hfault
    obtain ⟨u', hprogram'⟩ := program_of_error hp' hparsed' hq' hfault'
    exact .inr ⟨fault, u, u', hprogram, hprogram'⟩

end ParseM

section Source

open Scanner (Cuts)

variable {r : Relocation} {file file' source source' : String} {ts ts' : List Token} {e e' : Token}

/-- Sources whose tokens differ in places only are parsed into trees that do, with reports that do,
or give the same fault. -/
theorem parseWithin_abreast (h : Cuts file ⟨source.toList, 0, 1, 1⟩ ts e)
    (h' : Cuts file' ⟨source'.toList, 0, 1, 1⟩ ts' e')
    (hts : ts.map (·.relocate r) = ts'.map (·.relocate r)) (he : e.relocate r = e'.relocate r)
    (limit : Nat) (reading reading' : Reading) :
    (∃ (parsed parsed' : Parsed) (t t' : Stand),
      parseWithin limit reading file source = .ok parsed ∧
      parseWithin limit reading' file' source' = .ok parsed' ∧ t.Alike r t' ∧
      parsed.tree = ⟨file, source, t.statements⟩ ∧
      parsed'.tree = ⟨file', source', t'.statements⟩ ∧
      Interleaves t.diagnostics (complaintsOf ts) parsed.diagnostics.toList ∧
      Interleaves t'.diagnostics (complaintsOf ts') parsed'.diagnostics.toList) ∨
    ∃ fault, parseWithin limit reading file source = .error fault ∧
      parseWithin limit reading' file' source' = .error fault := by
  obtain ⟨σ, _, _, feed, hfeed, hparse⟩ := exists_feed h limit reading
  obtain ⟨σ', _, _, feed', hfeed', hparse'⟩ := exists_feed h' limit reading'
  have halike : (Stand.ofCuts h limit).Alike r (.ofCuts h' limit) :=
    ⟨rfl, hts, he, rfl, rfl, rfl, rfl⟩
  rw [hparse, hparse']
  rcases ParseM.program_abreast halike (shows_ofFeed h limit hfeed)
    (shows_ofFeed h' limit hfeed') rfl rfl with hread | hfault
  · obtain ⟨q, q', t, t', hprogram, hprogram', ht, htree, htree', hbag, hbag', -⟩ := hread
    rw [hprogram, hprogram']
    exact .inl ⟨_, _, t, t', rfl, rfl, ht, htree, htree', hbag, hbag'⟩
  · obtain ⟨fault, q, q', hprogram, hprogram'⟩ := hfault
    rw [hprogram, hprogram']
    exact .inr ⟨fault, rfl, rfl⟩

end Source

end Abacus
