import Abacus.Proofs.Parser.Levels
import Abacus.Proofs.Parser.Reprint
import Abacus.Proofs.Scanner.Joined

/-! Two programs with a line break between them are parsed into the statements of both. -/
namespace Abacus

open Scanner (Cuts)

def Kind.opensStatement (k : Kind) : Bool :=
  k = .ifWord || k = .lbrace || k = .intWord || k = .boolWord || k.opensOperand

theorem Spells.opensStatement {ts rest : List Token} {a : Node}
    (h : Spells .statement ts a rest) : (leadKind ts).opensStatement = true := by
  cases h with
  | plain _ spell => simp [Kind.opensStatement, spell.opensOperand_expression]
  | typedDeclaration h => rcases h with h | h <;> rw [leadKind_cons, h] <;> rfl
  | ifAlone h | ifElse h | block h | declaration h =>
    rw [leadKind_cons, h]
    rfl

/-- A statement continues nothing, unless it starts with a sign. -/
theorem Kind.detached_of_opensStatement {k : Kind} (h : k.opensStatement = true) (hplus : k ≠ .plus)
    (hminus : k ≠ .minus) : k.Detached := by
  cases k <;> first | contradiction | exact ⟨by decide, by decide, by decide, rfl⟩

theorem tree_of_parse {reading : Reading} {file source : String} {parsed : Parsed}
    (h : parse reading file source = .ok parsed) :
    parsed.tree = ⟨file, source, parsed.tree.statements⟩ := by
  obtain ⟨ts, e, hcuts, -⟩ := exists_cuts_of_source file source
  rcases parseWithin_abreast (r := .stay) hcuts hcuts rfl rfl Parser.nestingLimit reading reading
    with ⟨parsed', -, t, -, hparse, -, -, htree, -⟩ | ⟨fault, hfault, -⟩
  · obtain rfl := Except.ok.inj (h.symm.trans hparse)
    rw [htree]
  · cases h.symm.trans hfault

theorem leadKind_tokensOf {file source : String} {ts : List Token} {e : Token}
    (h : Cuts file ⟨source.toList, 0, 1, 1⟩ ts e) (htokens : tokensOf file source = ts ++ [e]) :
    leadKind (tokensOf file source) = leadKind ts := by
  rw [htokens]
  cases ts with
  | nil => exact h.kind_eof
  | cons t ts => rfl

theorem statements_ne_nil_of_parse {reading : Reading} {file source : String} {parsed : Parsed}
    (h : parse reading file source = .ok parsed) (hclean : parsed.diagnostics = #[])
    (hsome : leadKind (tokensOf file source) ≠ .eof) : parsed.tree.statements ≠ [] := by
  obtain ⟨ts, e, hcuts, htokens⟩ := exists_cuts_of_source file source
  have hleaves := (spellsAll_of_parse h hclean hcuts).2.exact.1
  intro hnil
  rw [hnil, Node.leavesAll] at hleaves
  rw [leadKind_tokensOf hcuts htokens, hleaves] at hsome
  exact hsome leadKind_nil

section Joined

variable {file source₁ source₂ : String} {reading₁ reading₂ : Reading} {parsed₁ parsed₂ : Parsed}

def Relocation.past (source : String) : Relocation :=
  .shift (source.toList.length + 1) (source.toList.count '\n' + 1)

theorem cuts_joined {ts₁ ts₂ : List Token} {e₁ e₂ : Token}
    (h₁ : Cuts file ⟨source₁.toList, 0, 1, 1⟩ ts₁ e₁)
    (h₂ : Cuts file ⟨source₂.toList, 0, 1, 1⟩ ts₂ e₂) :
    Cuts file ⟨(source₁ ++ "\n" ++ source₂).toList, 0, 1, 1⟩
      (ts₁ ++ ts₂.map (·.relocate (.past source₁))) (e₂.relocate (.past source₁)) := by
  have htext : (source₁ ++ "\n" ++ source₂).toList = source₁.toList ++ '\n' :: source₂.toList := by
    simp
  rw [htext]
  exact h₁.joined h₂

theorem SpellsAll.detached {ts : List Token} {stmts : List Node} (h : SpellsAll ts stmts)
    (hplus : leadKind ts ≠ .plus) (hminus : leadKind ts ≠ .minus) : (leadKind ts).Detached := by
  cases h with
  | nil => exact detached_nil
  | cons spellFirst _ =>
    exact Kind.detached_of_opensStatement spellFirst.opensStatement hplus hminus

theorem parse_joined (h₁ : parse reading₁ file source₁ = .ok parsed₁)
    (hclean₁ : parsed₁.diagnostics = #[]) (h₂ : parse reading₂ file source₂ = .ok parsed₂)
    (hclean₂ : parsed₂.diagnostics = #[]) (hplus : leadKind (tokensOf file source₂) ≠ .plus)
    (hminus : leadKind (tokensOf file source₂) ≠ .minus) (reading : Reading) :
    ∃ parsed, parse reading file (source₁ ++ "\n" ++ source₂) = .ok parsed ∧
      parsed.diagnostics = #[] ∧ parsed.tree.statements =
        parsed₁.tree.statements ++ parsed₂.tree.statements.map (Node.relocate (.past source₁)) := by
  obtain ⟨ts₁, e₁, hcuts₁, -⟩ := exists_cuts_of_source file source₁
  obtain ⟨ts₂, e₂, hcuts₂, htokens₂⟩ := exists_cuts_of_source file source₂
  obtain ⟨hbad₁, hspelled₁⟩ := spellsAll_of_parse h₁ hclean₁ hcuts₁
  obtain ⟨hbad₂, hspelled₂⟩ := spellsAll_of_parse h₂ hclean₂ hcuts₂
  rw [leadKind_tokensOf hcuts₂ htokens₂] at hplus hminus
  have hdetached := hspelled₂.detached hplus hminus
  have hcuts := cuts_joined hcuts₁ hcuts₂
  have hgathered : (ts₁ ++ ts₂.map (·.relocate (.past source₁))).map (·.relocate .gather) =
      (ts₁ ++ ts₂).map (·.relocate .gather) := by
    simp only [List.map_append, List.map_map]
    rfl
  have hlevels : ∀ stmt ∈ parsed₁.tree.statements ++ parsed₂.tree.statements,
      stmt.statementLevels ≤ Parser.nestingLimit :=
    List.forall_mem_append.mpr ⟨forall_statements_of_parse (fun hread => hread.within trivial) h₁,
      forall_statements_of_parse (fun hread => hread.within trivial) h₂⟩
  obtain ⟨parsed, hok, hclean, -⟩ := parse_of_statementLevels_le hcuts hgathered
    (List.forall_mem_append.mpr ⟨hbad₁, hbad₂⟩) (hspelled₁.append hspelled₂ hdetached) hlevels reading
  refine ⟨parsed, hok, hclean, ?_⟩
  -- The levels do not depend on the places; the tree does, so it is spelled where it stands.
  rw [← leadKind_map_relocate (.past source₁)] at hdetached
  have hbad : ∀ t ∈ ts₁ ++ ts₂.map (·.relocate (.past source₁)), t.kind ≠ .bad := by
    rw [List.forall_mem_append, List.forall_mem_map]
    exact ⟨hbad₁, hbad₂⟩
  obtain ⟨parsed', hok', hread⟩ := parse_of_spellsAll reading hcuts hbad
    (hspelled₁.append (hspelled₂.relocate (.past source₁)) hdetached)
  obtain rfl := Except.ok.inj (hok.symm.trans hok')
  rcases hread with ⟨d, hd, -⟩ | ⟨-, hstatements⟩
  · simp [hclean] at hd
  · exact hstatements

end Joined

end Abacus
