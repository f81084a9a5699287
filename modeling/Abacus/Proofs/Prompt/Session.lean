import Abacus.Proofs.Eval.Frame
import Abacus.Prompt.Session

/-! Sessions: what a line can do to the bindings, and that showing trees changes nothing but what is
shown. -/
namespace Abacus

theorem runEntry_cases (reading : Reading) (source : String) (s : Scope) :
    (∃ f, parse reading "<repl>" source = .error f ∧
      runEntry reading source s = (.error (.fault f), s)) ∨
    (∃ parsed, parse reading "<repl>" source = .ok parsed ∧ parsed.diagnostics.hasErrors = true ∧
      runEntry reading source s = (.ok (none, parsed.diagnostics), s)) ∨
    (∃ parsed v, parse reading "<repl>" source = .ok parsed ∧
      parsed.diagnostics.hasErrors = false ∧ (evaluate parsed.tree s).1 = .ok v ∧
      runEntry reading source s = (.ok (v, parsed.diagnostics), (evaluate parsed.tree s).2)) ∨
    ∃ parsed e, parse reading "<repl>" source = .ok parsed ∧
      parsed.diagnostics.hasErrors = false ∧ (evaluate parsed.tree s).1 = .error e ∧
      runEntry reading source s = (.error (.failed e), (evaluate parsed.tree s).2) := by
  unfold runEntry
  rcases hparse : parse reading "<repl>" source with f | parsed
  · exact .inl ⟨f, rfl, rfl⟩
  · cases herrors : parsed.diagnostics.hasErrors with
    | true => exact .inr (.inl ⟨parsed, rfl, herrors, by simp [herrors]⟩)
    | false =>
      rcases heval : evaluate parsed.tree s with ⟨e | v, s'⟩
      · exact .inr (.inr (.inr ⟨parsed, e, rfl, herrors, by simp [heval], by simp [herrors, heval]⟩))
      · exact .inr (.inr (.inl ⟨parsed, v, rfl, herrors, by simp [heval], by simp [herrors, heval]⟩))

namespace SlashCommand

theorem name_of_ofName? {text : String} {c : SlashCommand} (h : ofName? text = some c) :
    c.name = text := by
  have hname := List.find?_some h
  exact eq_of_beq hname

theorem ofName?_eq_reset_iff {text : String} : ofName? text = some .reset ↔ text = "/reset" := by
  constructor
  · intro h
    exact (name_of_ofName? h).symm
  · rintro rfl
    decide

end SlashCommand

namespace Session

/-- The command word of a line, if it has one: the stripped text up to its first space. -/
def commandWord? (line : String) : Option String :=
  let stripped := Text.strip line
  if stripped.startsWith "/" then some (String.ofList (stripped.toList.takeWhile (· != ' ')))
  else none

section Lines

variable (s : Session) (lines : List String)

theorem foldl_print : lines.foldl (fun s line => s.print line) s =
    { s with out := lines.foldl (fun out line => out ++ line ++ "\n") s.out } := by
  induction lines generalizing s with
  | nil => rfl
  | cons line lines ih => exact ih (s.print line)

theorem foldl_warn : lines.foldl (fun s line => s.warn line) s =
    { s with err := lines.foldl (fun err line => err ++ line ++ "\n") s.err } := by
  induction lines generalizing s with
  | nil => rfl
  | cons line lines ih => exact ih (s.warn line)

end Lines

theorem scope_command (c : SlashCommand) (word : String) (s : Session) :
    (s.command c word).scope = if c = .reset then {} else s.scope := by
  cases c with
  | clear | reset => rfl
  | scope =>
    unfold command
    rw [foldl_print]
    rfl
  | tree =>
    unfold command
    cases SlashCommand.toggled? word s.showTree <;> rfl
  | traceback =>
    unfold command
    cases SlashCommand.toggled? word s.settings.showsTraceback <;> rfl

theorem slash?_of_none {line : String} (s : Session) (h : commandWord? line = none) :
    s.slash? line = none := by
  unfold commandWord? at h
  unfold slash?
  by_cases hslash : (Text.strip line).startsWith "/" = true
  · simp [hslash] at h
  · simp [hslash]

theorem slash?_of_some {line word : String} (h : commandWord? line = some word) :
    (∃ c rest, SlashCommand.ofName? word = some c ∧
      ∀ s, slash? line s = some (s.command c rest)) ∨
    SlashCommand.ofName? word = none ∧
      ∀ s, slash? line s = some (s.warn ("Unknown command: " ++ word)) := by
  unfold commandWord? at h
  unfold slash?
  by_cases hslash : (Text.strip line).startsWith "/" = true
  · simp only [hslash, if_true, Option.some.injEq] at h ⊢
    subst h
    unfold splitCommand
    cases SlashCommand.ofName? (String.ofList ((Text.strip line).toList.takeWhile (· != ' '))) with
    | some c => exact .inl ⟨c, _, rfl, fun s => rfl⟩
    | none => exact .inr ⟨rfl, fun s => by simp [toString]⟩
  · simp [hslash] at h

theorem scope_of_slash? {line word : String} {s s' : Session} (h : commandWord? line = some word)
    (hs : s.slash? line = some s') : s'.scope = if word = "/reset" then {} else s.scope := by
  rcases slash?_of_some h with ⟨c, rest, hname, hslash⟩ | ⟨hname, hslash⟩
  · rw [hslash s] at hs
    cases hs
    rw [scope_command]
    by_cases hc : c = .reset
    · rw [if_pos hc, if_pos (SlashCommand.ofName?_eq_reset_iff.mp (hc ▸ hname))]
    · rw [if_neg hc, if_neg]
      rintro rfl
      rw [SlashCommand.ofName?_eq_reset_iff.mpr rfl] at hname
      exact hc (Option.some.inj hname).symm
  · rw [hslash s] at hs
    cases hs
    rw [if_neg]
    · rfl
    · rintro rfl
      rw [SlashCommand.ofName?_eq_reset_iff.mpr rfl] at hname
      cases hname

def spoken : Except RunError (Option Value × Diagnostics) → String
  | .ok (some v, _) => v.display ++ "\n"
  | _ => ""

def complaint (settings : Settings) : Except RunError (Option Value × Diagnostics) → String
  | .ok (_, ds) => Diagnostics.printed ds
  | .error (.failed e) => String.join ((e.report settings).map (· ++ "\n"))
  | .error (.refused ds) => Diagnostics.printed ds
  | .error (.fault _) => ""

def treeText (text : String) (s : Session) : String :=
  if s.showTree then
    match parse s.settings.reading "<repl>" text with
    | .error _ => ""
    | .ok parsed => "\n".intercalate parsed.tree.outlineLines ++ "\n"
  else ""

theorem foldl_lines (text : String) (lines : List String) :
    lines.foldl (fun text line => text ++ line ++ "\n") text =
      text ++ String.join (lines.map (· ++ "\n")) := by
  induction lines generalizing text with
  | nil => simp
  | cons line lines ih =>
    rw [List.foldl_cons, ih]
    simp [String.append_assoc]

def faultOf : Except RunError (Option Value × Diagnostics) → Option Fault
  | .error (.fault f) => some f
  | _ => none

theorem showEntry_of_ok {text : String} {s : Session} {parsed : Parsed}
    (h : parse s.settings.reading "<repl>" text = .ok parsed) :
    s.showEntry text = .ok { s with out := s.out ++ s.treeText text } := by
  obtain ⟨scope, showTree, settings, out, err⟩ := s
  unfold showEntry treeText
  cases showTree with
  | false => simp
  | true => simp [h, print, String.append_assoc]

theorem showEntry_of_error {text : String} {s : Session} {f : Fault}
    (h : parse s.settings.reading "<repl>" text = .error f) :
    s.treeText text = "" ∧ (s.showEntry text = .error f ∨ s.showEntry text = .ok s) := by
  unfold showEntry treeText
  cases s.showTree with
  | false => simp
  | true => simp [h]

/-- All that an entry does: the tree comes first, if it is to be shown, and the rest is the outcome
of running it, whether the tree was shown or not. -/
theorem entry_eq (text : String) (s : Session) :
    s.entry text = (faultOf (runEntry s.settings.reading text s.scope).1,
      { s with
        scope := (runEntry s.settings.reading text s.scope).2
        out := s.out ++ s.treeText text ++ spoken (runEntry s.settings.reading text s.scope).1
        err := s.err ++ complaint s.settings (runEntry s.settings.reading text s.scope).1 }) := by
  unfold entry
  rcases runEntry_cases s.settings.reading text s.scope with ⟨f, hparse, hrun⟩ |
    ⟨parsed, hparse, -, hrun⟩ | ⟨parsed, v, hparse, -, -, hrun⟩ | ⟨parsed, e, hparse, -, -, hrun⟩
  · obtain ⟨htree, hshow | hshow⟩ := showEntry_of_error hparse <;>
      simp [hshow, hrun, htree, faultOf, spoken, complaint]
  · simp [showEntry_of_ok hparse, hrun, faultOf, spoken, complaint]
  · cases v with
    | none => simp [showEntry_of_ok hparse, hrun, faultOf, spoken, complaint]
    | some v => simp [showEntry_of_ok hparse, hrun, faultOf, spoken, complaint, print,
        String.append_assoc]
  · simp [showEntry_of_ok hparse, hrun, faultOf, spoken, complaint, foldl_warn, foldl_lines]

structure Turn where
  text : String
  quiet : Bool := false

inductive Reply where
  | command
  | printed (fault : Option Fault)
  | outcome (result : Except RunError (Option Value × Diagnostics))

def take (turn : Turn) (s : Session) : Reply × Session :=
  match s.slash? turn.text with
  | some s => (.command, s)
  | none =>
    if turn.quiet then
      let (result, scope) := runEntry s.settings.reading turn.text s.scope
      (.outcome result, { s with scope := scope })
    else
      let (fault, s) := s.entry turn.text
      (.printed fault, s)

def play (turns : List Turn) (s : Session) : Session :=
  turns.foldl (fun s turn => (s.take turn).2) s

theorem play_cons (turn : Turn) (turns : List Turn) (s : Session) :
    s.play (turn :: turns) = (s.take turn).2.play turns := by
  unfold play
  rw [List.foldl_cons]

section Turns

variable {turn : Turn} {s s' : Session}

theorem scope_take_of_some {word : String} (h : commandWord? turn.text = some word) :
    (s.take turn).2.scope = if word = "/reset" then {} else s.scope := by
  unfold take
  rcases slash?_of_some h with ⟨c, rest, -, hslash⟩ | ⟨-, hslash⟩ <;>
    exact hslash s ▸ scope_of_slash? h (hslash s)

theorem scope_take_of_none (h : commandWord? turn.text = none) :
    (s.take turn).2.scope = (runEntry s.settings.reading turn.text s.scope).2 := by
  unfold take
  rw [slash?_of_none s h]
  cases turn.quiet with
  | true => rfl
  | false =>
    simp only [Bool.false_eq_true, if_false]
    rw [entry_eq]

theorem scope_take_entry {parsed : Parsed} (h : commandWord? turn.text = none)
    (hparse : parse s.settings.reading "<repl>" turn.text = .ok parsed) :
    (s.take turn).2.scope = if parsed.diagnostics.hasErrors then s.scope
      else (evaluate parsed.tree s.scope).2 := by
  rw [scope_take_of_none h]
  rcases runEntry_cases s.settings.reading turn.text s.scope with ⟨f, hparse', hrun⟩ |
    ⟨parsed', hparse', herrors, hrun⟩ | ⟨parsed', v, hparse', herrors, -, hrun⟩ |
    ⟨parsed', e, hparse', herrors, -, hrun⟩ <;>
  · rw [hparse] at hparse'
    cases hparse'
    all_goals simp [hrun, herrors]

theorem scope_take_fault {f : Fault} (h : commandWord? turn.text = none)
    (hparse : parse s.settings.reading "<repl>" turn.text = .error f) :
    (s.take turn).2.scope = s.scope := by
  rw [scope_take_of_none h]
  unfold runEntry
  rw [hparse]

/-- One step: unless all bindings are to be forgotten, they stay where they are. -/
theorem grows_take (h : commandWord? turn.text ≠ some "/reset") :
    s.scope.Grows (s.take turn).2.scope := by
  cases hword : commandWord? turn.text with
  | some word =>
    have hne : word ≠ "/reset" := fun heq => h (heq ▸ hword)
    rw [scope_take_of_some hword, if_neg hne]
    exact .refl s.scope
  | none =>
    cases hparse : parse s.settings.reading "<repl>" turn.text with
    | error f =>
      rw [scope_take_fault hword hparse]
      exact .refl s.scope
    | ok parsed =>
      rw [scope_take_entry hword hparse]
      split
      · exact .refl s.scope
      · exact EvalM.grows_program parsed.tree s.scope

theorem grows_play {turns : List Turn} (h : ∀ turn ∈ turns, commandWord? turn.text ≠ some "/reset") :
    s.scope.Grows (s.play turns).scope := by
  induction turns generalizing s with
  | nil => exact .refl s.scope
  | cons turn turns ih =>
    rw [List.forall_mem_cons] at h
    rw [play_cons]
    exact (grows_take h.1).trans (ih h.2)

end Turns

/-- Sessions that differ in what was printed, and in whether trees are, at most. -/
structure Alike (s s' : Session) : Prop where
  scope : s.scope = s'.scope
  settings : s.settings = s'.settings
  err : s.err = s'.err

section Alike

variable {turn : Turn} {s s' : Session}

theorem Alike.warn (h : Alike s s') (line : String) : Alike (s.warn line) (s'.warn line) :=
  ⟨h.scope, h.settings, congrArg (· ++ line ++ "\n") h.err⟩

theorem isNone_toggled? (word : String) (b b' : Bool) :
    (SlashCommand.toggled? word b).isNone = (SlashCommand.toggled? word b').isNone := by
  unfold SlashCommand.toggled?
  simp only
  split
  · rfl
  · split
    · rfl
    · split <;> rfl

theorem Alike.command (h : Alike s s') (c : SlashCommand) (word : String) :
    Alike (s.command c word) (s'.command c word) := by
  cases c with
  | clear => exact h
  | reset => exact ⟨rfl, h.settings, h.err⟩
  | scope =>
    unfold Session.command
    simp only [foldl_print]
    exact ⟨h.scope, h.settings, h.err⟩
  | tree =>
    unfold Session.command
    have hnone := isNone_toggled? word s.showTree s'.showTree
    cases htoggled : SlashCommand.toggled? word s.showTree with
    | none =>
      rw [htoggled] at hnone
      rw [Option.isNone_iff_eq_none.mp hnone.symm]
      exact h.warn _
    | some on =>
      rw [htoggled] at hnone
      cases htoggled' : SlashCommand.toggled? word s'.showTree with
      | none => simp [htoggled'] at hnone
      | some on' => exact ⟨h.scope, h.settings, h.err⟩
  | traceback =>
    unfold Session.command
    rw [← h.settings]
    cases SlashCommand.toggled? word s.settings.showsTraceback with
    | none => exact h.warn _
    | some on => exact ⟨h.scope, rfl, h.err⟩

theorem Alike.take (h : Alike s s') (turn : Turn) :
    (s.take turn).1 = (s'.take turn).1 ∧ Alike (s.take turn).2 (s'.take turn).2 := by
  unfold Session.take
  cases hword : commandWord? turn.text with
  | some word =>
    rcases slash?_of_some hword with ⟨c, rest, -, hslash⟩ | ⟨-, hslash⟩
    · rw [hslash s, hslash s']
      exact ⟨rfl, h.command c rest⟩
    · rw [hslash s, hslash s']
      exact ⟨rfl, h.warn _⟩
  | none =>
    rw [slash?_of_none s hword, slash?_of_none s' hword, entry_eq, entry_eq, ← h.settings,
      ← h.scope, ← h.err]
    generalize runEntry s.settings.reading turn.text s.scope = outcome
    cases turn.quiet <;> exact ⟨rfl, rfl, rfl, rfl⟩

theorem Alike.play (h : Alike s s') (turns : List Turn) : Alike (s.play turns) (s'.play turns) := by
  induction turns generalizing s s' with
  | nil => exact h
  | cons turn turns ih =>
    rw [play_cons, play_cons]
    exact ih (h.take turn).2

end Alike

/-- At every point of every session: one command forgets all bindings, and no other line that is a
command touches any; an entry that is not accepted leaves the bindings as they were, and any other
keeps their names in place and does to them what its tree does; so names are lost to that one
command alone. Whether trees are shown has no influence on bindings, replies, complaints and what
is printed after the tree. -/
theorem play_bindings (start : Session) (turns : List Turn) (turn : Turn) :
    let before := start.play turns
    let after := (before.take turn).2
    (commandWord? turn.text = some "/reset" → after.scope = {}) ∧
    (∀ word, commandWord? turn.text = some word → word ≠ "/reset" → after.scope = before.scope) ∧
    (commandWord? turn.text = none →
      (∀ f, parse before.settings.reading "<repl>" turn.text = .error f →
        after.scope = before.scope) ∧
      ∀ parsed, parse before.settings.reading "<repl>" turn.text = .ok parsed →
        (parsed.diagnostics.hasErrors = true → after.scope = before.scope) ∧
        (parsed.diagnostics.hasErrors = false →
          before.scope.keys <+: after.scope.keys ∧
          after.scope = (evaluate parsed.tree before.scope).2)) ∧
    ((∀ turn ∈ turns, commandWord? turn.text ≠ some "/reset") →
      start.scope.keys <+: before.scope.keys) ∧
    ∀ on,
      let before' := { start with showTree := on }.play turns
      let after' := (before'.take turn).2
      (before'.take turn).1 = (before.take turn).1 ∧
      before'.scope = before.scope ∧ after'.scope = after.scope ∧
      before'.err = before.err ∧ after'.err = after.err ∧
      (commandWord? turn.text = none → turn.quiet = false →
        let said := spoken (runEntry before.settings.reading turn.text before.scope).1
        after.out = before.out ++ before.treeText turn.text ++ said ∧
        after'.out = before'.out ++ before'.treeText turn.text ++ said) := by
  intro before after
  refine ⟨fun hreset => ?_, fun word hword hne => ?_, fun hentry => ⟨fun f hparse => ?_, ?_⟩,
    fun hkept => (grows_play hkept).keys, fun on => ?_⟩
  · exact (scope_take_of_some hreset).trans (if_pos rfl)
  · exact (scope_take_of_some hword).trans (if_neg hne)
  · exact scope_take_fault hentry hparse
  · intro parsed hparse
    have hscope := scope_take_entry hentry hparse
    refine ⟨fun herrors => hscope.trans (if_pos herrors), fun herrors => ⟨?_, ?_⟩⟩
    · exact (grows_take (by simp [hentry])).keys
    · exact hscope.trans (if_neg (by simp [herrors]))
  · intro before' after'
    have hstart : Alike { start with showTree := on } start := ⟨rfl, rfl, rfl⟩
    have hbefore : Alike before' before := hstart.play turns
    obtain ⟨hreply, hafter⟩ := hbefore.take turn
    refine ⟨hreply, hbefore.scope, hafter.scope, hbefore.err, hafter.err, fun hentry hloud => ?_⟩
    have hout (s : Session) : (s.take turn).2.out = s.out ++ s.treeText turn.text ++
        spoken (runEntry s.settings.reading turn.text s.scope).1 := by
      unfold Session.take
      rw [slash?_of_none s hentry, hloud, entry_eq]
      rfl
    refine ⟨hout before, ?_⟩
    rw [← hbefore.settings, ← hbefore.scope]
    exact hout before'

theorem play_bindings_reset :
    let start : Session := { scope := ⟨[("x", some (.int 1))], []⟩, showTree := true }
    ((start.play [⟨"/tree off", false⟩]).take ⟨" /reset all", true⟩).2.scope = {} ∧
    ((start.play [⟨"/tree off", false⟩]).take ⟨"/resets", true⟩).2.scope = start.scope := by
  intro start
  obtain ⟨hreset, -⟩ := play_bindings start [⟨"/tree off", false⟩] ⟨" /reset all", true⟩
  obtain ⟨-, hother, -⟩ := play_bindings start [⟨"/tree off", false⟩] ⟨"/resets", true⟩
  obtain ⟨-, htree, -⟩ := play_bindings start [] ⟨"/tree off", false⟩
  refine ⟨hreset (by decide +kernel), (hother "/resets" (by decide +kernel) (by decide)).trans ?_⟩
  exact htree "/tree" (by decide +kernel) (by decide)

end Session

end Abacus
