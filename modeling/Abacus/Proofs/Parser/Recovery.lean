import Abacus.Proofs.Parser.Source
import Abacus.Proofs.Parser.Spelling
import Abacus.Proofs.Tree.Whole

/-! Every report leaves its mark on the tree: a hole, a placeholder, a literal that was cut down, or a
token that the tree does not have. -/
namespace Abacus

def real (ts : List Token) : List Token := ts.filter (·.kind ≠ .unexpected)

@[simp] theorem real_nil : real [] = [] := rfl

theorem real_append (ts ts' : List Token) : real (ts ++ ts') = real ts ++ real ts' :=
  List.filter_append ts ts'

theorem real_eq_self {ts : List Token} (h : ∀ t ∈ ts, t.kind ≠ .unexpected) : real ts = ts := by
  simpa [real, List.filter_eq_self] using h

/-- From `s` to `s'` the tokens `kept` get into the tree. Others may be lost, and they are if there
was a report, unless what was made is not `whole`. -/
def Keeps (s s' : Stand) (kept : List Token) (whole : Prop) : Prop :=
  ∃ used, s.ahead = used ++ s'.ahead ∧ kept.Sublist used ∧ (∀ t ∈ kept, t.kind ≠ .bad) ∧
    (s'.reports ≠ s.reports → whole → kept.length < used.length)

namespace Keeps

variable {s s₁ s' : Stand} {kept kept' : List Token} {whole whole' : Prop}

theorem refl (s : Stand) : Keeps s s [] True :=
  ⟨[], rfl, .slnil, by simp, fun h => absurd rfl h⟩

theorem trans (h : Keeps s s₁ kept whole) (h' : Keeps s₁ s' kept' whole') :
    Keeps s s' (kept ++ kept') (whole ∧ whole') := by
  obtain ⟨used, hahead, hsublist, hbad, hlost⟩ := h
  obtain ⟨used', hahead', hsublist', hbad', hlost'⟩ := h'
  refine ⟨used ++ used', ?_, hsublist.append hsublist', ?_, ?_⟩
  · rw [hahead, hahead', List.append_assoc]
  · intro t ht
    rcases List.mem_append.mp ht with ht | ht
    · exact hbad t ht
    · exact hbad' t ht
  · intro hreports hwhole
    have hle := hsublist.length_le
    have hle' := hsublist'.length_le
    rw [List.length_append, List.length_append]
    by_cases hsame : s₁.reports = s.reports
    · have hlt := hlost' (by rwa [hsame]) hwhole.2
      omega
    · have hlt := hlost hsame hwhole.1
      omega

theorem mono (h : Keeps s s' kept whole) (hwhole : whole' → whole) : Keeps s s' kept whole' := by
  obtain ⟨used, hahead, hsublist, hbad, hlost⟩ := h
  exact ⟨used, hahead, hsublist, hbad, fun hreports hw => hlost hreports (hwhole hw)⟩

theorem of_leads (h : s.Leads s') : Keeps s s' [] False := by
  obtain ⟨used, hahead, -⟩ := h.used
  exact ⟨used, hahead, List.nil_sublist _, by simp, fun _ hw => hw.elim⟩

theorem of_lost (h : s.Leads s') (hlt : s'.ahead.length < s.ahead.length) :
    Keeps s s' [] True := by
  obtain ⟨used, hahead, -⟩ := h.used
  refine ⟨used, hahead, List.nil_sublist _, by simp, fun _ _ => ?_⟩
  rw [hahead, List.length_append] at hlt
  rw [List.length_nil]
  omega

theorem skip (s : Stand) (n : Nat) : Keeps s (s.skip n) [] True :=
  ⟨s.ahead.take n, by simp, List.nil_sublist _, by simp, fun h => absurd rfl h⟩

theorem advance (h : s.head.kind.Spelled) : Keeps s s.advance (real [s.head]) True := by
  rw [real_eq_self (by simpa using h.2.2)]
  exact ⟨[s.head], Stand.ahead_eq_cons h.1, .refl _, by simpa using h.2.1, fun h => absurd rfl h⟩

theorem pair (h : s.head.kind.Spelled) (h' : (s.look 1).kind.Spelled) :
    Keeps s (s.skip 2) (real [s.head, s.look 1]) True := by
  have hnext := advance (s := s.advance) (by rwa [Stand.head_advance])
  have hboth := (advance h).trans hnext
  rw [Stand.head_advance, Stand.advance, Stand.advance, Stand.skip_skip, ← real_append] at hboth
  exact hboth.mono fun _ => ⟨trivial, trivial⟩

theorem movedOn (s s' : Stand) : Keeps s' (s.movedOn s') [] True := by
  unfold Stand.movedOn
  split
  · exact skip s' 1
  · exact refl s'

end Keeps

theorem Expects.keeps {kind : Kind} {s s' : Stand} {t : Token} (h : Expects kind s t s')
    (hkind : kind.Spelled) : Keeps s s' (real [t]) (t.kind ≠ .unexpected) := by
  cases h with
  | found h => exact (Keeps.advance (h ▸ hkind)).mono fun _ => trivial
  | absent _ => exact (Keeps.of_leads (s.leads_report _ _)).mono fun h => h rfl

theorem Kind.spelled_of_unaryPrecedence {k : Kind} (h : k.unaryPrecedence ≠ 0) : k.Spelled := by
  cases k <;> simp_all [unaryPrecedence, Spelled]

theorem Kind.spelled_of_binaryPrecedence {k : Kind} (h : k.binaryPrecedence ≠ 0) : k.Spelled := by
  cases k <;> simp_all [binaryPrecedence, Spelled]

theorem Kind.spelled_of_isAssignment {k : Kind} (h : k.isAssignment) : k.Spelled := by
  cases k <;> simp_all [isAssignment, Spelled]

namespace Rule

def behind : Rule → List Token
  | items lbrace done => lbrace :: Node.leavesAll done.reverse
  | operators _ left => left.leaves
  | _ => []

def StartsWhole : Rule → Prop
  | items lbrace done => lbrace.kind ≠ .unexpected ∧ ∀ n ∈ done, n.Whole
  | operators _ left => left.Whole
  | _ => True

/-- What a rule makes has the tokens of what it goes on from and then those that it keeps. -/
def Keeps (rule : Rule) (s s' : Stand) (a : Node) : Prop :=
  ∃ kept, real a.leaves = real rule.behind ++ kept ∧ (a.Whole → rule.StartsWhole) ∧
    Abacus.Keeps s s' kept a.Whole

end Rule

theorem Keeps.ofRule {rule : Rule} {s s' : Stand} {a : Node} (h : rule.Keeps s s' a)
    (hbehind : rule.behind = []) : Keeps s s' (real a.leaves) a.Whole := by
  obtain ⟨kept, hleaves, -, hkeeps⟩ := h
  rw [hbehind, real_nil, List.nil_append] at hleaves
  rwa [hleaves]

theorem Rule.Keeps.of {rule : Rule} {s s' : Stand} {a : Node} {kept : List Token} {whole : Prop}
    (h : Abacus.Keeps s s' kept whole) (hwhole : a.Whole → whole) (hleaves : real a.leaves = kept)
    (hbehind : rule.behind = []) (hstarts : rule.StartsWhole) : rule.Keeps s s' a :=
  ⟨kept, by rw [hbehind, hleaves, real_nil, List.nil_append], fun _ => hstarts, h.mono hwhole⟩

theorem Reads.keeps {rule : Rule} {n : Nat} {s s' : Stand} {a : Node} (h : Reads rule n s a s') :
    rule.Keeps s s' a := by
  induction h with
  | @deepStatement s =>
    exact .of (Keeps.of_leads s.leads_pastRegion) (by simp) rfl rfl trivial
  | @deepExpression parent s =>
    exact .of (Keeps.of_leads s.leads_pastRegion) (by simp) rfl rfl trivial
  | branch _ _ ih => exact ih
  | @block n s s' a h items ih =>
    obtain ⟨kept, hleaves, -, hkeeps⟩ := ih
    have hall := (Keeps.advance (by simp [h, Kind.Spelled])).trans hkeeps
    refine .of hall (fun hw => ⟨trivial, hw⟩) ?_ rfl trivial
    rw [hleaves]
    rfl
  | @typedDeclaration n s s₁ s₂ s' name operator init h expectName expectSign readInit ih =>
    have hhead : s.head.kind.Spelled := by rcases h with h | h <;> simp [h, Kind.Spelled]
    have hname := expectName.keeps (by simp [Kind.Spelled])
    have hsign := expectSign.keeps (by simp [Kind.Spelled])
    have hall := (Keeps.advance hhead).trans (hname.trans (hsign.trans (Keeps.ofRule ih rfl)))
    refine .of hall ?_ ?_ rfl trivial
    · simp only [Node.whole_declare]
      exact fun hw => ⟨trivial, hw.2⟩
    · simp only [← real_append]
      rfl
  | @declaration n s s' init h h' readInit ih =>
    have hpair := Keeps.pair (s := s) (by simp [h, Kind.Spelled]) (by simp [h', Kind.Spelled])
    refine .of (hpair.trans (Keeps.ofRule ih rfl)) ?_ ?_ rfl trivial
    · simp only [Node.whole_declare]
      exact fun hw => ⟨trivial, hw.2.2.2⟩
    · rw [← real_append]
      rfl
  | plain _ _ ih => exact .of (Keeps.ofRule ih rfl) id rfl rfl trivial
  | @lone n s s₁ s₂ condition body h readCondition readBody h' ih ih' =>
    have hall := (Keeps.advance (by simp [h, Kind.Spelled])).trans
      ((Keeps.ofRule ih rfl).trans (Keeps.ofRule ih' rfl))
    refine .of hall ?_ ?_ rfl trivial
    · simp only [Node.whole_branch]
      exact fun hw => ⟨trivial, hw.2.1, hw.2.2.1⟩
    · simp only [← real_append, Node.leaves, List.append_nil]
      rfl
  | @last n s s₁ s₂ s' condition body alternative h readCondition readBody h' h'' readAlternative ih
      ih' ih''
  | @link n s s₁ s₂ s' condition body alternative h readCondition readBody h' h'' readAlternative ih
      ih' ih'' =>
    have helse := (Keeps.advance (s := s₂) (by simp [h', Kind.Spelled])).trans (Keeps.ofRule ih'' rfl)
    have hall := (Keeps.advance (by simp [h, Kind.Spelled])).trans
      ((Keeps.ofRule ih rfl).trans ((Keeps.ofRule ih' rfl).trans helse))
    refine .of hall ?_ ?_ rfl trivial
    · simp only [Node.whole_branch, Node.whole_otherwise]
      exact fun hw => ⟨trivial, hw.2.1, hw.2.2.1, trivial, (hw.2.2.2 rfl).2⟩
    · simp only [← real_append, Node.leaves, List.append_assoc, List.cons_append, List.nil_append]
  | @close n s s' lbrace rbrace done h expectBrace =>
    refine ⟨real [rbrace], ?_, ?_, (expectBrace.keeps (by simp [Kind.Spelled])).mono ?_⟩
    · rw [← real_append]
      rfl
    · simp only [Node.whole_block, List.mem_reverse]
      exact fun hw => ⟨hw.1, hw.2.1⟩
    · simp only [Node.whole_block]
      exact fun hw => hw.2.2
  | @item n s s₁ s' lbrace done stmt a h h' readItem readRest ih ih' =>
    obtain ⟨kept, hleaves, hstarts, hkeeps⟩ := ih'
    cases hmissing : stmt.isMissing with
    | true =>
      -- The statement is dropped, and with it the token that reading moved on by.
      rw [hmissing] at hleaves hstarts
      have hlost := Keeps.of_lost readItem.leads.movedOn (readItem.leads.length_movedOn_lt h')
      exact ⟨kept, hleaves, hstarts, (hlost.trans hkeeps).mono fun hw => ⟨trivial, hw⟩⟩
    | false =>
      rw [hmissing] at hleaves hstarts
      have hitem := (Keeps.ofRule ih rfl).trans (Keeps.movedOn s s₁)
      refine ⟨real stmt.leaves ++ kept, ?_, fun hw => ?_, ?_⟩
      · have hbehind : (Rule.items lbrace (stmt :: done)).behind =
            (Rule.items lbrace done).behind ++ stmt.leaves := by
          simp [Rule.behind, Node.leavesAll_eq_flatMap]
        rw [← List.append_assoc, ← real_append, ← hbehind]
        exact hleaves
      · obtain ⟨hbrace, hdone⟩ := hstarts hw
        exact ⟨hbrace, fun n hn => hdone n (List.mem_cons_of_mem stmt hn)⟩
      · rw [List.append_nil] at hitem
        refine (hitem.trans hkeeps).mono fun hw => ⟨⟨?_, trivial⟩, hw⟩
        exact (hstarts hw).2 stmt List.mem_cons_self
  | @expression n s s₁ s' parent left a readLeft readRest ih ih' =>
    obtain ⟨kept, hleaves, hstarts, hkeeps⟩ := ih'
    exact .of ((Keeps.ofRule ih rfl).trans hkeeps) (fun hw => ⟨hstarts hw, hw⟩) hleaves rfl trivial
  | stop h => exact ⟨[], by rw [List.append_nil]; rfl, id, (Keeps.refl _).mono fun _ => trivial⟩
  | @operator n s s₁ s' parent left right a h h' readRight readRest ih ih' =>
    obtain ⟨kept, hleaves, hstarts, hkeeps⟩ := ih'
    simp only [Rule.StartsWhole, Node.whole_binary] at hstarts
    have hright := (Keeps.advance (Kind.spelled_of_binaryPrecedence h)).trans (Keeps.ofRule ih rfl)
    refine ⟨real [s.head] ++ real right.leaves ++ kept, ?_, fun hw => (hstarts hw).1, ?_⟩
    · rw [hleaves]
      simp only [Rule.behind, Node.leaves, real_append, List.append_assoc]
      rfl
    · exact (hright.trans hkeeps).mono fun hw => ⟨⟨trivial, (hstarts hw).2.2⟩, hw⟩
  | @unary n s s' parent e h h' read ih =>
    have hall := (Keeps.advance (Kind.spelled_of_unaryPrecedence h)).trans (Keeps.ofRule ih rfl)
    refine .of hall ?_ ?_ rfl trivial
    · simp only [Node.whole_unary]
      exact fun hw => ⟨trivial, hw.2⟩
    · rw [← real_append]
      rfl
  | @bare n s s' parent a h read ih =>
    have hall := (Keeps.skip s _).trans (Keeps.ofRule ih rfl)
    exact .of hall (fun hw => ⟨trivial, hw⟩) rfl rfl trivial
  | @number n s skipped value h h' h'' =>
    exact .of (Keeps.advance (by simp [h, Kind.Spelled])) (fun _ => trivial) rfl rfl trivial
  | @bigNumber n s skipped value h h' h'' =>
    have hall := (Keeps.advance (by simp [h, Kind.Spelled])).trans
      (Keeps.of_leads (s.advance.leads_report s.head.span s!"integer literal out of range: {s.head.text}"))
    refine .of hall ?_ (List.append_nil _).symm rfl trivial
    have hdecimal := (Rules.literalValue_eq_ok_iff.mp h').1
    simp only [Node.whole_number, hdecimal, Option.map_some, Option.some.injEq]
    intro hw
    have hvalue : (value : Int) = Word.max := hw.2
    omega
  | @boolean n s skipped h =>
    have hhead : s.head.kind.Spelled := by rcases h with h | h <;> simp [h, Kind.Spelled]
    exact .of (Keeps.advance hhead) (fun _ => trivial) rfl rfl trivial
  | @paren n s s₁ s' skipped e rparen h read expectParen ih =>
    have hparen := expectParen.keeps (by simp [Kind.Spelled])
    have hall := (Keeps.advance (by simp [h, Kind.Spelled])).trans ((Keeps.ofRule ih rfl).trans hparen)
    refine .of hall ?_ ?_ rfl trivial
    · simp only [Node.whole_paren]
      exact fun hw => ⟨trivial, hw.2⟩
    · simp only [← real_append]
      rfl
  | @assignment n s s' skipped right h h' read ih =>
    have hpair := Keeps.pair (s := s) (by simp [h, Kind.Spelled]) (Kind.spelled_of_isAssignment h')
    refine .of (hpair.trans (Keeps.ofRule ih rfl)) ?_ ?_ rfl trivial
    · simp only [Node.whole_assign]
      exact fun hw => ⟨trivial, hw.2.2⟩
    · rw [← real_append]
      rfl
  | @identifier n s skipped h h' =>
    exact .of (Keeps.advance (by simp [h, Kind.Spelled])) (fun _ => trivial) rfl rfl trivial
  | @nothing n s skipped h =>
    exact .of (Keeps.of_leads (s.leads_pastNonsense skipped)) (by simp) rfl rfl trivial

theorem Keeps.keep {s s' : Stand} {kept : List Token} {whole : Prop} (h : Keeps s s' kept whole)
    (stmt : Node) : Keeps s (s'.keep stmt) kept whole := by
  unfold Keeps at h ⊢
  rwa [Stand.ahead_keep, Stand.reports_keep]

theorem ReadsAll.keeps {n : Nat} {s s' : Stand} (h : ReadsAll n s s') :
    ∃ kept, real (Node.leavesAll s'.statements) = real (Node.leavesAll s.statements) ++ kept ∧
      ((∀ stmt ∈ s'.statements, stmt.Whole) → ∀ stmt ∈ s.statements, stmt.Whole) ∧
      Keeps s s' kept (∀ stmt ∈ s'.statements, stmt.Whole) := by
  induction h with
  | @done s _ => exact ⟨[], (List.append_nil _).symm, id, (Keeps.refl s).mono fun _ => trivial⟩
  | @next s s₁ s' stmt h readFirst readRest ih =>
    obtain ⟨kept, hleaves, hstarts, hkeeps⟩ := ih
    have hstatements := readFirst.leads.movedOn.statements
    cases hmissing : stmt.isMissing with
    | true =>
      rw [Stand.keep_of_isMissing hmissing] at hleaves hstarts hkeeps
      rw [hstatements] at hleaves hstarts
      have hlost := Keeps.of_lost readFirst.leads.movedOn (readFirst.leads.length_movedOn_lt h)
      exact ⟨kept, hleaves, hstarts, (hlost.trans hkeeps).mono fun hw => ⟨trivial, hw⟩⟩
    | false =>
      have hfirst := ((Keeps.ofRule readFirst.keeps rfl).trans (Keeps.movedOn s s₁)).keep stmt
      rw [Stand.keep_of_not_isMissing hmissing] at hleaves hstarts
      simp only [hstatements] at hleaves hstarts
      refine ⟨real stmt.leaves ++ kept, ?_, fun hw => ?_, ?_⟩
      · rw [hleaves]
        simp [Node.leavesAll_eq_flatMap, real_append]
      · exact fun m hm => hstarts hw m (List.mem_append_left _ hm)
      · rw [List.append_nil] at hfirst
        refine (hfirst.trans hkeeps).mono fun hw => ⟨⟨?_, trivial⟩, hw⟩
        exact hstarts hw stmt (List.mem_append_right _ List.mem_cons_self)

/-- What the grammar makes of a text has all of its tokens in their order, and nothing wrong. -/
theorem Spells.exact {rule : Rule} {ts rest : List Token} {a : Node} (h : Spells rule ts a rest) :
    rule.behind ++ ts = a.leaves ++ rest ∧ (rule.StartsWhole → a.Whole) := by
  induction h with
  | ifAlone h _ _ _ ih ih' => simp_all [Rule.behind, Rule.StartsWhole, Node.leaves, Node.isMissing]
  | block h _ ih => simp_all [Rule.behind, Rule.StartsWhole, Node.leavesAll]
  | @typedDeclaration t name sign ts rest init h hname hsign _ ih =>
    have hunexpected : t.kind ≠ .unexpected := by rcases h with h | h <;> simp [h]
    simp_all [Rule.behind, Rule.StartsWhole, Node.leaves]
  | item _ _ _ ih ih' =>
    simp_all [Rule.behind, Rule.StartsWhole, Node.leavesAll_eq_flatMap]
  | @operator t ts mid rest parent left right a h _ _ _ ih ih' =>
    have hunexpected := (Kind.spelled_of_binaryPrecedence h).2.2
    simp_all [Rule.behind, Rule.StartsWhole, Node.leaves]
  | @unary t ts rest parent e h _ _ ih =>
    have hunexpected := (Kind.spelled_of_unaryPrecedence h).2.2
    simp_all [Rule.behind, Rule.StartsWhole, Node.leaves]
  | @number t ts parent value h h' _ =>
    have hdecimal := (Rules.literalValue_eq_ok_iff.mp h').1
    simp_all [Rule.behind, Rule.StartsWhole, Node.leaves]
  | @boolean t ts parent h =>
    have hunexpected : t.kind ≠ .unexpected := by rcases h with h | h <;> simp [h]
    simp_all [Rule.behind, Rule.StartsWhole, Node.leaves]
  | @assignment name sign ts rest parent right hname hsign _ ih =>
    have hunexpected := (Kind.spelled_of_isAssignment hsign).2.2
    simp_all [Rule.behind, Rule.StartsWhole, Node.leaves]
  | _ => simp_all [Rule.behind, Rule.StartsWhole, Node.leaves]

theorem SpellsAll.exact {ts : List Token} {stmts : List Node} (h : SpellsAll ts stmts) :
    ts = Node.leavesAll stmts ∧ ∀ stmt ∈ stmts, stmt.Whole := by
  induction h with
  | nil => simp [Node.leavesAll]
  | @cons ts rest stmt stmts spellFirst _ ih =>
    obtain ⟨hleaves, hwhole⟩ := spellFirst.exact
    refine ⟨?_, ?_⟩
    · rw [Node.leavesAll, ← ih.1]
      exact hleaves
    · intro m hm
      rcases List.mem_cons.mp hm with rfl | hm
      · exact hwhole trivial
      · exact ih.2 m hm

theorem ReadsAll.isMissing_eq {n : Nat} {s s' : Stand} (h : ReadsAll n s s')
    (hs : ∀ stmt ∈ s.statements, stmt.isMissing = false) :
    ∀ stmt ∈ s'.statements, stmt.isMissing = false := by
  induction h with
  | done _ => exact hs
  | @next s s₁ s' stmt _ readFirst _ ih =>
    apply ih
    intro m hm
    unfold Stand.keep at hm
    split at hm
    · rw [readFirst.leads.movedOn.statements] at hm
      exact hs m hm
    · rename_i hmissing
      rcases List.mem_append.mp hm with hm | hm
      · rw [readFirst.leads.movedOn.statements] at hm
        exact hs m hm
      · rw [List.mem_singleton.mp hm]
        simpa using hmissing

theorem Node.forall_whole_iff {stmts : List Node} (h : ∀ stmt ∈ stmts, stmt.isMissing = false) :
    (∀ stmt ∈ stmts, stmt.Whole) ↔ (∀ n ∈ walk stmts, n.Filled) ∧
      (∀ t ∈ tokens stmts, t.kind ≠ .unexpected) ∧ ∀ n ∈ walk stmts, n.ValueSpelled := by
  rw [forall_walk_iff, forall_walk_iff, tokens_eq_flatMap]
  simp only [Whole, List.mem_flatMap]
  grind

theorem filter_tokensOf {file source : String} {ts : List Token} {e : Token}
    (hcuts : Scanner.Cuts file ⟨source.toList, 0, 1, 1⟩ ts e)
    (htokens : tokensOf file source = ts ++ [e]) :
    (tokensOf file source).filter (·.kind ≠ .eof) = ts := by
  have hts : ts.filter (·.kind ≠ .eof) = ts := by
    simpa [List.filter_eq_self] using hcuts.kind_ne_eof
  rw [htokens, List.filter_append, hts]
  simp [hcuts.kind_eof]

/-- Nothing is reported or complained about just where the tree is whole and has the whole text. -/
theorem ReadsAll.clean_iff {n : Nat} {s s' : Stand} (h : ReadsAll n s s') (hreports : s.reports = [])
    (hstatements : s.statements = []) :
    (s'.reports = [] ∧ ∀ t ∈ s.ahead, t.kind ≠ .bad) ↔
      (∀ stmt ∈ s'.statements, stmt.Whole) ∧ Node.leavesAll s'.statements = s.ahead := by
  constructor
  · rintro ⟨hclean, hbad⟩
    obtain ⟨stmts, hspelled, hall⟩ := h.spelled hclean hbad
    rw [hstatements, List.nil_append] at hall
    rw [hall]
    exact ⟨hspelled.exact.2, hspelled.exact.1.symm⟩
  · rintro ⟨hwhole, hleaves⟩
    obtain ⟨kept, hkept, -, used, hused, -, hbad, hlost⟩ := h.keeps
    rw [h.ahead_eq_nil, List.append_nil] at hused
    have hunexpected : ∀ t ∈ s.ahead, t.kind ≠ .unexpected := by
      intro t ht
      rw [← hleaves, Node.leavesAll_eq_flatMap, List.mem_flatMap] at ht
      obtain ⟨stmt, hstmt, ht⟩ := ht
      exact (hwhole stmt hstmt).2.2.1 t ht
    have hall : kept = s.ahead := by
      rw [hleaves, real_eq_self hunexpected, hstatements] at hkept
      exact hkept.symm
    subst hall
    refine ⟨?_, hbad⟩
    by_contra hsome
    have hlt := hlost (by rwa [hreports]) hwhole
    rw [hused] at hlt
    exact absurd hlt (Nat.lt_irrefl _)

theorem spellsAll_of_parseWithin {limit : Nat} {reading : Reading} {file source : String}
    {parsed : Parsed} (h : parseWithin limit reading file source = .ok parsed)
    (hclean : parsed.diagnostics = #[]) {ts : List Token} {e : Token}
    (hcuts : Scanner.Cuts file ⟨source.toList, 0, 1, 1⟩ ts e) :
    (∀ t ∈ ts, t.kind ≠ .bad) ∧ SpellsAll ts parsed.tree.statements := by
  obtain ⟨s', hall, hstatements, hdiagnostics⟩ := exists_readsAll_of_parseWithin h hcuts
  obtain ⟨hreports, hbad⟩ := (eq_empty_iff_of_perm hdiagnostics).mp hclean
  obtain ⟨stmts, hspelled, heq⟩ := hall.spelled hreports hbad
  rw [hstatements, heq]
  exact ⟨hbad, hspelled⟩

theorem spellsAll_of_parse {reading : Reading} {file source : String} {parsed : Parsed}
    (h : parse reading file source = .ok parsed) (hclean : parsed.diagnostics = #[])
    {ts : List Token} {e : Token} (hcuts : Scanner.Cuts file ⟨source.toList, 0, 1, 1⟩ ts e) :
    (∀ t ∈ ts, t.kind ≠ .bad) ∧ SpellsAll ts parsed.tree.statements :=
  spellsAll_of_parseWithin h hclean hcuts

/-- The diagnostics tell exactly whether the tree has the source as it stands. -/
theorem diagnostics_eq_empty_iff {reading : Reading} {file source : String} {parsed : Parsed}
    (h : parse reading file source = .ok parsed) :
    parsed.diagnostics = #[] ↔
      (∀ n ∈ Node.walk parsed.tree.statements, n.Filled) ∧
      (∀ t ∈ Node.tokens parsed.tree.statements, t.kind ≠ .unexpected) ∧
      (∀ n ∈ Node.walk parsed.tree.statements, n.ValueSpelled) ∧
      Node.tokens parsed.tree.statements = (tokensOf file source).filter (·.kind ≠ .eof) := by
  obtain ⟨ts, e, hcuts, htokens⟩ := exists_cuts_of_source file source
  obtain ⟨s', hall, hstatements, hdiagnostics⟩ := exists_readsAll_of_parse h hcuts
  have hmissing := hall.isMissing_eq (by simp [Stand.ofCuts])
  have hclean := hall.clean_iff rfl rfl
  rw [Node.forall_whole_iff hmissing, Node.leavesAll_eq_flatMap, ← Node.tokens_eq_flatMap] at hclean
  rw [eq_empty_iff_of_perm hdiagnostics, hstatements, filter_tokensOf hcuts htokens]
  exact hclean.trans (by rw [and_assoc, and_assoc]; rfl)

theorem diagnostics_eq_empty_iff_unclosed :
    ∃ parsed, parse .direct "" "(1" = .ok parsed ∧
      (parsed.diagnostics = #[] ↔
        (∀ n ∈ Node.walk parsed.tree.statements, n.Filled) ∧
        (∀ t ∈ Node.tokens parsed.tree.statements, t.kind ≠ .unexpected) ∧
        (∀ n ∈ Node.walk parsed.tree.statements, n.ValueSpelled) ∧
        Node.tokens parsed.tree.statements = (tokensOf "" "(1").filter (·.kind ≠ .eof)) := by
  obtain ⟨parsed, h, -⟩ := exists_eq_ok_of_any (x := parse .direct "" "(1") (P := fun _ => true)
    (by decide +kernel)
  exact ⟨parsed, h, diagnostics_eq_empty_iff h⟩

end Abacus
