import Abacus.Proofs.Grammar.Accepted
import Abacus.Proofs.Grammar.Simulation
import Abacus.Proofs.Parser.Recovery

/-! The parser and the reference grammar accept the same sources and group them alike, within the
limits of either: an operand that is an assignment is for the parser only, and literals past the
limit on digits are for the grammar only. -/
namespace Abacus

namespace Text

theorem foldlM_decimalDigit? {digits : List Char} (h : ∀ c ∈ digits, isAsciiDigit c = true)
    (n : Nat) :
    digits.foldlM (fun n c => (decimalDigit? c).map (10 * n + ·)) n =
      some (Nat.ofDigitChars 10 digits n) := by
  induction digits generalizing n with
  | nil => rfl
  | cons c rest ih =>
    rw [List.foldlM_cons, decimalDigit?_of_isAsciiDigit (h c List.mem_cons_self)]
    exact ih (fun d hd => h d (List.mem_cons_of_mem c hd)) _

theorem isSome_decimal? {digits : List Char} (hne : digits ≠ [])
    (h : ∀ c ∈ digits, isAsciiDigit c = true) : (decimal? (String.ofList digits)).isSome := by
  unfold decimal?
  rw [String.toList_ofList]
  split
  · exact absurd rfl hne
  · rw [foldlM_decimalDigit? h]
    rfl

end Text

namespace Scanner

theorem isAsciiDigit_of_foremost {c : Char} {rest : List Char} (h : (foremost c rest).1 = .number) :
    (foremost c rest).2 = (c :: rest).takeWhile Text.isAsciiDigit ∧ Text.isAsciiDigit c = true := by
  have hbracket : bracket? c ≠ some .number := by
    unfold bracket?
    split <;> simp
  have hsingle : Kind.ofChar? c ≠ some .number := by
    unfold Kind.ofChar?
    split <;> simp
  have hpair (d : Char) (kind : Kind) (hkind : Kind.ofChars? c d = some kind) : kind ≠ .number := by
    unfold Kind.ofChars? at hkind
    split at hkind <;> cases hkind <;> simp
  have hoperator {single : Kind} (hne : single ≠ .number) :
      (operatorAt c single rest).1 ≠ .number :=
    Ready.operatorAt_kind (P := (· ≠ .number)) hne hpair rest
  have hword (word : List Char) : (Kind.ofWord? word).getD .ident ≠ .number := by
    unfold Kind.ofWord?
    split <;> simp
  unfold foremost at *
  grind

theorem isSome_decimal?_foremost {c : Char} {rest : List Char} (h : (foremost c rest).1 = .number) :
    (Text.decimal? (String.ofList (foremost c rest).2)).isSome := by
  obtain ⟨hchars, hdigit⟩ := isAsciiDigit_of_foremost h
  rw [hchars]
  refine Text.isSome_decimal? ?_ fun d hd => List.mem_takeWhile_imp hd
  rw [List.takeWhile_cons_of_pos hdigit]
  exact List.cons_ne_nil _ _

theorem Cuts.isSome_decimal? {file : String} {m : Mark} {ts : List Token} {e : Token}
    (h : Cuts file m ts e) : ∀ t ∈ ts, t.kind = .number → (Text.decimal? t.text).isSome := by
  induction h with
  | done _ => exact List.forall_mem_nil _
  | token _ _ ih => exact List.forall_mem_cons.mpr ⟨isSome_decimal?_foremost, ih⟩

end Scanner

/-- A token that can stand in a program: no colon, and if a number, then one that fits. -/
def Token.Meant (t : Token) : Prop :=
  t.kind ≠ .colon ∧ (t.kind = .number → ∃ value : Nat, Rules.literalValue t.text = .ok value ∧
    (value : Int) ≤ Word.max)

theorem Token.meant_of_kind {t : Token} {kind : Kind} (h : t.kind = kind)
    (hkind : kind ≠ .colon ∧ kind ≠ .number) : t.Meant :=
  ⟨h ▸ hkind.1, fun h' => absurd (h.symm.trans h') hkind.2⟩

theorem Spells.meant {rule : Rule} {ts rest : List Token} {a : Node} (h : Spells rule ts a rest)
    (hrest : ∀ t ∈ rest, t.Meant) : ∀ t ∈ ts, t.Meant := by
  induction h with
  | ifAlone h _ _ _ ih ih' =>
    exact List.forall_mem_cons.mpr ⟨Token.meant_of_kind h (by decide), ih (ih' hrest)⟩
  | ifElse h _ _ h' _ ih ih' ih'' =>
    have halternative := List.forall_mem_cons.mpr ⟨Token.meant_of_kind h' (by decide), ih'' hrest⟩
    exact List.forall_mem_cons.mpr ⟨Token.meant_of_kind h (by decide), ih (ih' halternative)⟩
  | block h _ ih => exact List.forall_mem_cons.mpr ⟨Token.meant_of_kind h (by decide), ih hrest⟩
  | typedDeclaration h hname hsign _ ih =>
    have hword := h.elim (Token.meant_of_kind · (by decide)) (Token.meant_of_kind · (by decide))
    simp only [List.forall_mem_cons]
    exact ⟨hword, Token.meant_of_kind hname (by decide), Token.meant_of_kind hsign (by decide),
      ih hrest⟩
  | declaration hname hsign _ ih =>
    simp only [List.forall_mem_cons]
    exact ⟨Token.meant_of_kind hname (by decide), Token.meant_of_kind hsign (by decide), ih hrest⟩
  | plain _ _ ih => exact ih hrest
  | close h => exact List.forall_mem_cons.mpr ⟨Token.meant_of_kind h (by decide), hrest⟩
  | item _ _ _ ih ih' => exact ih (ih' hrest)
  | expression _ _ ih ih' => exact ih (ih' hrest)
  | stop _ => exact hrest
  | @operator t _ _ _ _ _ _ _ h _ _ _ ih ih' =>
    refine List.forall_mem_cons.mpr ⟨Token.meant_of_kind rfl ⟨?_, ?_⟩, ih (ih' hrest)⟩
    · exact fun hcolon => h (hcolon ▸ rfl)
    · exact fun hnumber => h (hnumber ▸ rfl)
  | unary h _ _ ih =>
    refine List.forall_mem_cons.mpr ⟨Token.meant_of_kind rfl ⟨?_, ?_⟩, ih hrest⟩
    · exact fun hcolon => h (hcolon ▸ rfl)
    · exact fun hnumber => h (hnumber ▸ rfl)
  | number h h' h'' => exact List.forall_mem_cons.mpr ⟨⟨by simp [h], fun _ => ⟨_, h', h''⟩⟩, hrest⟩
  | boolean h =>
    have hword := h.elim (Token.meant_of_kind · (by decide)) (Token.meant_of_kind · (by decide))
    exact List.forall_mem_cons.mpr ⟨hword, hrest⟩
  | paren h _ h' ih =>
    have hclose := List.forall_mem_cons.mpr ⟨Token.meant_of_kind h' (by decide), hrest⟩
    exact List.forall_mem_cons.mpr ⟨Token.meant_of_kind h (by decide), ih hclose⟩
  | @assignment name sign _ _ _ _ hname hsign _ ih =>
    have hblocked : Blocked [sign] := hsign
    have hmeant : sign.Meant :=
      Token.meant_of_kind rfl ⟨hblocked.kind_ne rfl, hblocked.kind_ne rfl⟩
    simp only [List.forall_mem_cons]
    exact ⟨Token.meant_of_kind hname (by decide), hmeant, ih hrest⟩
  | identifier h _ => exact List.forall_mem_cons.mpr ⟨Token.meant_of_kind h (by decide), hrest⟩

theorem SpellsAll.meant {ts : List Token} {stmts : List Node} (h : SpellsAll ts stmts) :
    ∀ t ∈ ts, t.Meant := by
  induction h with
  | nil => exact List.forall_mem_nil _
  | cons spellFirst _ ih => exact spellFirst.meant ih

namespace Grammar

open PhraseM

section Program

variable {source : String} {ts : List Token} {stray : Option Stray}

def Cursor.start (ts : List Token) (stray : Option Stray) : Cursor := ⟨ts.map .ofToken, stray, none⟩

theorem Cursor.at_start : (Cursor.start ts stray).At stray ts := ⟨rfl, rfl⟩

theorem shapeOf_eq (hlexemes : lexemes source = (ts.map .ofToken, stray))
    (heof : ∀ t ∈ ts, t.kind ≠ .eof) :
    shapeOf source =
      match Phrases.program ts.length (.start ts stray) with
      | .ok (shs, _) => .ok (.rule "start" shs)
      | .error fault => .error fault := by
  have hsim := sim_program (c := .start ts stray) (List.forall_mem_map.mpr heof)
  have hlength : (Cursor.start ts stray).ahead.length = ts.length := List.length_map _
  have hshape : shapeOf source = (run [] (.start ts stray)).map Outline.reduced := by
    unfold shapeOf
    simp only [hlexemes]
    show (run [] (.start ts stray) >>= _) = _
    cases run [] (.start ts stray) <;> rfl
  rw [hlength] at hsim
  unfold Sim at hsim
  split at hsim <;> rename_i hprogram
  · rw [hshape, hprogram, hsim]
    rfl
  · obtain ⟨o, hrun, ho⟩ := hsim
    rw [hshape, hprogram, hrun]
    exact congrArg Except.ok ho

theorem shapeOf_of_accepts {shs : List Shape} (hlexemes : lexemes source = (ts.map .ofToken, none))
    (heof : ∀ t ∈ ts, t.kind ≠ .eof) (h : Accepts (Phrases.program ts.length) ts shs []) :
    shapeOf source = .ok (.rule "start" shs) := by
  obtain ⟨c, hrun, -⟩ := h _ Cursor.at_start
  rw [shapeOf_eq hlexemes heof, hrun]

theorem yields_of_shapeOf {sh : Shape} {Q : List Shape → List Token → Prop}
    (hlexemes : lexemes source = (ts.map .ofToken, stray)) (heof : ∀ t ∈ ts, t.kind ≠ .eof)
    (h : Yields stray (Phrases.program ts.length) ts Q) (hshape : shapeOf source = .ok sh) :
    ∃ shs rest, sh = .rule "start" shs ∧ Q shs rest := by
  rw [shapeOf_eq hlexemes heof] at hshape
  split at hshape
  · rename_i shs c hrun
    obtain ⟨rest, -, -, hQ⟩ := h _ Cursor.at_start shs c hrun
    exact ⟨shs, rest, (Except.ok.inj hshape).symm, hQ⟩
  · cases hshape

open Scanner (Cuts)

theorem spellsAll_of_shapeOf {file : String} {e : Token} {sh : Shape}
    (hcuts : Cuts file ⟨source.toList, 0, 1, 1⟩ ts e) (hplain : ∀ c ∈ source.toList, Plain c)
    (hts : Readable ts) (hshape : shapeOf source = .ok sh) :
    (∀ t ∈ ts, t.kind ≠ .bad) ∧
      ∃ stmts, SpellsAll ts stmts ∧ sh = .rule "start" (stmts.map Node.shape) := by
  obtain ⟨hlexemes, hnone⟩ := lexemesFrom_eq hcuts hplain (Nat.lt_succ_of_le hcuts.length_le) []
  have hsub {t : Token} (ht : t ∈ ts.takeWhile fun t => !isStray t.kind) : t ∈ ts :=
    (List.takeWhile_sublist _).subset ht
  have hread : Readable (ts.takeWhile fun t => !isStray t.kind) := fun t ht => hts t (hsub ht)
  obtain ⟨shs, -, rfl, hstray, stmts, hspelled, rfl⟩ :=
    yields_of_shapeOf (Prod.ext hlexemes rfl) (fun t ht => hcuts.kind_ne_eof t (hsub ht))
      (Phrases.yields_program _ hread) hshape
  have hall := hnone.mp hstray
  rw [List.takeWhile_eq_self_iff.mpr (by simpa using hall)] at hspelled
  refine ⟨fun t ht hbad => ?_, stmts, hspelled, rfl⟩
  have := hall t ht
  rw [hbad] at this
  cases this

/-- What is spelled is accepted, unless an operand is an assignment. -/
theorem shapeOf_of_spellsAll {file : String} {e : Token} {stmts : List Node}
    (hcuts : Cuts file ⟨source.toList, 0, 1, 1⟩ ts e) (hbad : ∀ t ∈ ts, t.kind ≠ .bad)
    (h : SpellsAll ts stmts) (hplain : ∀ stmt ∈ stmts, stmt.All Node.OperandsPlain) :
    shapeOf source = .ok (.rule "start" (stmts.map Node.shape)) := by
  have hstray : ∀ t ∈ ts, isStray t.kind = false := by
    intro t ht
    simp [isStray, hbad t ht, (h.meant t ht).1]
  exact shapeOf_of_accepts (lexemes_eq hcuts (plain_of_cuts hcuts hbad) hstray) hcuts.kind_ne_eof
    (Phrases.accepts_program h hplain)

end Program

end Grammar

theorem SpellsAll.isMissing_eq {ts : List Token} {stmts : List Node} (h : SpellsAll ts stmts) :
    ∀ stmt ∈ stmts, stmt.isMissing = false :=
  h.many.isMissing_eq

theorem SpellsAll.shape_ofTree {ts : List Token} {tree : Tree} (h : SpellsAll ts tree.statements) :
    (Outline.ofTree tree).shape = .rule "start" (tree.statements.map Node.shape) := by
  rw [Outline.shape_ofTree, Node.shapes_outlinesAll h.isMissing_eq]

theorem parse_of_spellsAll (reading : Reading) {file source : String} {ts : List Token} {e : Token}
    (hcuts : Scanner.Cuts file ⟨source.toList, 0, 1, 1⟩ ts e) (hbad : ∀ t ∈ ts, t.kind ≠ .bad)
    {stmts : List Node} (h : SpellsAll ts stmts) :
    ∃ parsed, parse reading file source = .ok parsed ∧
      ((∃ d ∈ parsed.diagnostics, d.message = deepMessage Parser.nestingLimit) ∨
        parsed.diagnostics = #[] ∧ parsed.tree.statements = stmts) := by
  rcases parseWithin_cases hcuts Parser.nestingLimit reading with hrun | hfault
  · obtain ⟨parsed, s', hok, hall, hstatements, hdiagnostics⟩ := hrun
    refine ⟨parsed, hok, ?_⟩
    rcases h.agrees hall rfl with ⟨r, hr, hmessage⟩ | ⟨heq, hreports⟩
    · rw [hall.limit_eq] at hmessage
      have hreport : Diagnostic.error r.1 r.2 ∈ s'.diagnostics := List.mem_map_of_mem hr
      have hmem := hdiagnostics.mem_iff.mpr (List.mem_append_left (complaintsOf ts) hreport)
      exact .inl ⟨_, Array.mem_toList_iff.mp hmem, hmessage⟩
    · exact .inr ⟨(eq_empty_iff_of_perm hdiagnostics).mpr ⟨hreports, hbad⟩, hstatements.trans heq⟩
  · obtain ⟨fault, -, t, ht, hkind, hfault⟩ := hfault
    obtain ⟨value, hvalue, -⟩ := (h.meant t ht).2 hkind
    cases hvalue.symm.trans hfault

/-- The parser and the reference grammar agree on what a program is and on how it groups. -/
theorem parse_agrees_with_grammar (reading : Reading) (file source : String) :
    (∀ parsed, parse reading file source = .ok parsed → parsed.diagnostics = #[] →
      (∀ n ∈ Node.walk parsed.tree.statements, n.OperandsPlain) →
      Grammar.shapeOf source = .ok (Outline.ofTree parsed.tree).shape) ∧
    (∀ shape, Grammar.shapeOf source = .ok shape →
      (∀ c ∈ source.toList, c ≠ '\x0c' ∧
        (Text.isAlphanumeric c = true → Text.isLetter c = true ∨ Text.isAsciiDigit c = true)) →
      (∀ t ∈ tokensOf file source, t.kind = .number →
        ∀ value : Nat, Text.decimal? t.text = some value → (value : Int) ≤ Word.max) →
      (∀ parsed, parse reading file source = .ok parsed →
        ∀ d ∈ parsed.diagnostics, d.message ≠ deepMessage Parser.nestingLimit) →
      ((∃ parsed, parse reading file source = .ok parsed ∧ parsed.diagnostics = #[] ∧
          (Outline.ofTree parsed.tree).shape = shape) ↔
        ∀ t ∈ tokensOf file source, t.kind = .number → t.text.length ≤ Fault.digitLimit)) := by
  obtain ⟨ts, e, hcuts, htokens⟩ := exists_cuts_of_source file source
  constructor
  · intro parsed h hclean hoperands
    obtain ⟨hbad, hspelled⟩ := spellsAll_of_parse h hclean hcuts
    have hplain : ∀ stmt ∈ parsed.tree.statements, stmt.All Node.OperandsPlain := by
      rw [Node.walk_eq_flatMap] at hoperands
      exact fun stmt hstmt n hn => hoperands n (List.mem_flatMap.mpr ⟨stmt, hstmt, hn⟩)
    rw [hspelled.shape_ofTree]
    exact Grammar.shapeOf_of_spellsAll hcuts hbad hspelled hplain
  · intro shape hshape hchars hfits hdeep
    have hnumbers {P : Token → Prop} : (∀ t ∈ tokensOf file source, t.kind = .number → P t) ↔
        ∀ t ∈ ts, t.kind = .number → P t := by
      simp [htokens, or_imp, forall_and, hcuts.kind_eof]
    rw [hnumbers] at hfits ⊢
    constructor
    · rintro ⟨parsed, h, hclean, -⟩ t ht hkind
      obtain ⟨value, hvalue, -⟩ := ((spellsAll_of_parse h hclean hcuts).2.meant t ht).2 hkind
      exact (Rules.literalValue_eq_ok_iff.mp hvalue).2
    · intro hlengths
      have hts : Readable ts := by
        intro t ht hkind
        obtain ⟨value, hvalue⟩ := Option.isSome_iff_exists.mp (hcuts.isSome_decimal? t ht hkind)
        exact ⟨value, Rules.literalValue_eq_ok_iff.mpr ⟨hvalue, hlengths t ht hkind⟩,
          hfits t ht hkind value hvalue⟩
      have hplain : ∀ c ∈ source.toList, Grammar.Plain c :=
        fun c hc => Grammar.plain_of_isLetter_or (hchars c hc).1 (hchars c hc).2
      obtain ⟨hbad, stmts, hspelled, rfl⟩ :=
        Grammar.spellsAll_of_shapeOf hcuts hplain hts hshape
      obtain ⟨parsed, h, ⟨d, hd, hmessage⟩ | ⟨hclean, rfl⟩⟩ :=
        parse_of_spellsAll reading hcuts hbad hspelled
      · exact absurd hmessage (hdeep parsed h d hd)
      · exact ⟨parsed, h, hclean, hspelled.shape_ofTree⟩

theorem parse_agrees_with_grammar_adjoining :
    ∃ parsed, parse .direct "" "1-2*-3(4)" = .ok parsed ∧ parsed.diagnostics = #[] ∧
      (∀ n ∈ Node.walk parsed.tree.statements, n.OperandsPlain) ∧
      Grammar.shapeOf "1-2*-3(4)" = .ok (Outline.ofTree parsed.tree).shape ∧
      ((∃ parsed', parse .direct "" "1-2*-3(4)" = .ok parsed' ∧ parsed'.diagnostics = #[] ∧
          (Outline.ofTree parsed'.tree).shape = (Outline.ofTree parsed.tree).shape) ↔
        ∀ t ∈ tokensOf "" "1-2*-3(4)", t.kind = .number → t.text.length ≤ Fault.digitLimit) := by
  obtain ⟨forward, backward⟩ := parse_agrees_with_grammar .direct "" "1-2*-3(4)"
  obtain ⟨parsed, h, hparsed⟩ := exists_eq_ok_of_any (x := parse .direct "" "1-2*-3(4)")
    (P := fun parsed => parsed.diagnostics.isEmpty &&
      (parsed.tree.statements.flatMap Node.nodes).all fun n => decide n.OperandsPlain)
    (by decide +kernel)
  simp only [Bool.and_eq_true, Array.isEmpty_iff, List.all_eq_true, decide_eq_true_eq,
    ← Node.walk_eq_flatMap] at hparsed
  have hshape := forward parsed h hparsed.1 hparsed.2
  refine ⟨parsed, h, hparsed.1, hparsed.2, hshape, backward _ hshape ?_ ?_ ?_⟩
  · -- decided over the list: a quantifier over `Char` may be decided over all of them
    have hchars : ("1-2*-3(4)".toList.all fun c => decide (c ≠ '\x0c' ∧
        (Text.isAlphanumeric c = true →
          Text.isLetter c = true ∨ Text.isAsciiDigit c = true))) = true := by
      decide +kernel
    simpa only [List.all_eq_true, decide_eq_true_eq] using hchars
  · have hvalues : ∀ t ∈ tokensOf "" "1-2*-3(4)", t.kind = .number →
        (Text.decimal? t.text).all (fun value => decide ((value : Int) ≤ Word.max)) = true := by
      decide +kernel
    intro t ht hkind value hvalue
    simpa [hvalue] using hvalues t ht hkind
  · intro parsed' h' d hd
    rw [← Except.ok.inj (h.symm.trans h'), hparsed.1] at hd
    exact absurd hd (Array.not_mem_empty d)

end Abacus
