import Abacus.Proofs.Parser.Reprint
import Abacus.Proofs.Parser.Worded
import Abacus.Proofs.Scanner.Longest
import Mathlib.Data.List.Induction

/-! The shape of a program shows all that sameness looks at: every text has one kind, and every kind
but those of names and numbers has one text. What a shape shows beyond that is how numbers are
padded. -/
namespace Abacus

namespace Text

theorem digitChar_of_isAsciiDigit {c : Char} (h : isAsciiDigit c = true) :
    c.toNat - '0'.toNat < 10 ∧ (c.toNat - '0'.toNat).digitChar = c := by
  simp only [isAsciiDigit, Bool.and_eq_true, decide_eq_true_eq, Char.le_def] at h
  have hlow : 48 ≤ c.toNat := h.1
  have hhigh : c.toNat ≤ 57 := h.2
  have hzero : '0'.toNat = 48 := rfl
  have hwritten : ∀ n < 10, Nat.digitChar n = Char.ofNat (48 + n) := by decide
  refine ⟨by omega, ?_⟩
  rw [hzero, hwritten _ (by omega), Nat.add_sub_cancel' hlow, Char.ofNat_toNat]

def Padded (digits : List Char) : Prop := 1 < digits.length ∧ digits.head? = some '0'

instance : DecidablePred Padded := fun _ => inferInstanceAs (Decidable (_ ∧ _))

theorem toDigits_ofDigitChars {digits : List Char} (hne : digits ≠ [])
    (hdigits : ∀ c ∈ digits, isAsciiDigit c = true) (hpadded : ¬ Padded digits) :
    Nat.toDigits 10 (Nat.ofDigitChars 10 digits 0) = digits := by
  induction digits using List.reverseRecOn with
  | nil => exact absurd rfl hne
  | append_singleton front c ih =>
    obtain ⟨hlt, hchar⟩ := digitChar_of_isAsciiDigit (hdigits c (by simp))
    rw [Nat.ofDigitChars_append, Nat.ofDigitChars_cons, Nat.ofDigitChars_nil]
    cases front with
    | nil =>
      rw [Nat.ofDigitChars_nil, Nat.mul_zero, Nat.zero_add, Nat.toDigits_of_lt_base hlt, hchar]
      rfl
    | cons d front =>
      have hfront : ¬ Padded (d :: front) := by
        rintro ⟨-, hzero⟩
        exact hpadded ⟨by simp, hzero⟩
      have hnumber := ih (List.cons_ne_nil d front)
        (fun x hx => hdigits x (List.mem_append_left [c] hx)) hfront
      generalize Nat.ofDigitChars 10 (d :: front) 0 = n at hnumber
      have hpos : 0 < n := by
        refine Nat.pos_of_ne_zero fun hzero => hpadded ?_
        rw [hzero, Nat.toDigits_zero] at hnumber
        rw [← hnumber]
        exact ⟨Nat.one_lt_two, rfl⟩
      rw [← Nat.toDigits_append_toDigits (by decide) hpos hlt, hnumber,
        Nat.toDigits_of_lt_base hlt, hchar]

theorem decimal?_eq {text : String} (hne : text.toList ≠ [])
    (hdigits : ∀ c ∈ text.toList, isAsciiDigit c = true) :
    decimal? text = some (Nat.ofDigitChars 10 text.toList 0) := by
  unfold decimal?
  split
  · contradiction
  · exact foldlM_decimalDigit? hdigits 0

/-- A number without what it is padded with; any other text as it is. -/
def unpad (text : String) : String := (decimal? text).elim text Nat.repr

theorem unpad_eq_iff {text text' : String} {n n' : Nat} (h : decimal? text = some n)
    (h' : decimal? text' = some n') : unpad text = unpad text' ↔ n = n' := by
  unfold unpad
  rw [h, h', Option.elim_some, Option.elim_some]
  refine ⟨fun heq => ?_, congrArg Nat.repr⟩
  have hdigits := congrArg (fun text => Nat.ofDigitChars 10 text.toList 0) heq
  simpa only [Nat.toList_repr, Nat.ofDigitChars_ten_toDigits] using hdigits

theorem unpad_eq_self {text : String} (hne : text.toList ≠ [])
    (hdigits : ∀ c ∈ text.toList, isAsciiDigit c = true) (hpadded : ¬ Padded text.toList) :
    unpad text = text := by
  unfold unpad
  rw [decimal?_eq hne hdigits, Option.elim_some, Nat.repr_eq_ofList_toDigits,
    toDigits_ofDigitChars hne hdigits hpadded, String.ofList_toList]

end Text

namespace Kind

def fixedText? : Kind → Option String
  | trueLit => some "true" | falseLit => some "false" | ifWord => some "if"
  | elseWord => some "else" | intWord => some "int" | boolWord => some "bool"
  | lparen => some "(" | rparen => some ")" | lbrace => some "\x7b" | rbrace => some "\x7d"
  | k => k.spelling?

theorem eq_of_ofWord? {word : List Char} {k : Kind} (h : ofWord? word = some k) :
    k.fixedText?.map (·.toList) = some word := by
  revert h
  fun_cases ofWord? word <;> rintro ⟨⟩ <;> rfl

theorem eq_of_bracket? {c : Char} {k : Kind} (h : Scanner.bracket? c = some k) :
    k.fixedText?.map (·.toList) = some [c] := by
  unfold Scanner.bracket? at h
  split at h <;> cases h <;> rfl

theorem eq_of_ofChar? {c : Char} {k : Kind} (h : ofChar? c = some k) :
    k.fixedText?.map (·.toList) = some [c] := by
  unfold ofChar? at h
  split at h <;> cases h <;> rfl

theorem eq_of_ofChars? {c d : Char} {k : Kind} (h : ofChars? c d = some k) :
    k.fixedText?.map (·.toList) = some [c, d] := by
  revert h
  fun_cases ofChars? c d <;> rintro ⟨⟩ <;> rfl

theorem isSome_fixedText?_of_isSign {k : Kind} (h : k.isSign = true) :
    k.fixedText?.isSome = true := by
  revert h
  cases k <;> decide

end Kind

namespace Scanner

theorem eq_of_classOf? {piece : List Char} {k : Kind} (h : classOf? piece = some k)
    (hk : k.fixedText?.isSome = true) : k.fixedText?.map (·.toList) = some piece := by
  unfold classOf? at h
  split at h
  · cases h
  · split at h
    · cases h
      cases hk
    · split at h
      · cases hword : Kind.ofWord? piece with
        | none =>
          rw [hword] at h
          cases h
          cases hk
        | some k' =>
          rw [hword] at h
          cases h
          exact Kind.eq_of_ofWord? hword
      · unfold signOf? at h
        split at h
        · rename_i c
          rcases Option.or_eq_some_iff.mp h with hbracket | ⟨-, h⟩
          · exact Kind.eq_of_bracket? hbracket
          · rcases Option.or_eq_some_iff.mp h with hsingle | ⟨-, h⟩
            · exact Kind.eq_of_ofChar? hsingle
            · split at h
              · cases h
              · cases h
                cases hk
        · exact Kind.eq_of_ofChars? h
        · cases h

end Scanner

namespace Token

/-- The token is what the scanner finds at the head of some text, and nothing to complain about. -/
def Regular (t : Token) : Prop := t.IsLexeme ∧ t.kind ≠ .bad

theorem Regular.classOf?_eq {t : Token} (h : t.Regular) :
    Scanner.classOf? t.text.toList = some t.kind := by
  obtain ⟨⟨c, rest, tail, htext, hforemost⟩, hbad⟩ := h
  have hspace : Scanner.isSpace c = false :=
    Scanner.isSpace_eq_false rest (by rw [hforemost]; exact hbad)
  have hclass := Scanner.classOf?_foremost hspace rest
  rwa [hforemost, ← htext] at hclass

theorem Regular.digits {t : Token} (h : t.Regular) (hkind : t.kind = .number) :
    t.text.toList ≠ [] ∧ ∀ c ∈ t.text.toList, Text.isAsciiDigit c = true := by
  obtain ⟨⟨c, rest, tail, htext, hforemost⟩, -⟩ := h
  have hfirst : (Scanner.foremost c rest).1 = .number := by rw [hforemost]; exact hkind
  have hnumber := Scanner.isAsciiDigit_of_foremost hfirst
  rw [hforemost] at hnumber
  rw [htext]
  refine ⟨List.cons_ne_nil c tail, fun d hd => ?_⟩
  rw [show c :: tail = _ from hnumber.1] at hd
  exact List.mem_takeWhile_imp hd

namespace Regular

variable {t u : Token} (ht : t.Regular) (hu : u.Regular)

include ht hu

/-- Text and kind tell the same of a token, if there is but one text of its kind. -/
theorem text_eq_iff (hfixed : t.kind.fixedText?.isSome = true)
    (hfixed' : u.kind.fixedText?.isSome = true) : t.text = u.text ↔ t.kind = u.kind := by
  constructor
  · intro h
    have hclass := ht.classOf?_eq
    rw [h, hu.classOf?_eq] at hclass
    exact (Option.some.inj hclass).symm
  · intro h
    have htext := Scanner.eq_of_classOf? ht.classOf?_eq hfixed
    rw [h, Scanner.eq_of_classOf? hu.classOf?_eq hfixed'] at htext
    exact (String.toList_inj.mp (Option.some.inj htext)).symm

end Regular

end Token

namespace Shape

def unpadToken : Shape → Shape
  | token text => token (Text.unpad text)
  | sh => sh

mutual

def unpad : Shape → Shape
  | token text => token text
  | rule label children =>
    rule label (if label = "number_literal" then children.map unpadToken else unpadAll children)

def unpadAll : List Shape → List Shape
  | [] => []
  | sh :: rest => sh.unpad :: unpadAll rest

end

theorem unpadAll_eq_map (shapes : List Shape) : unpadAll shapes = shapes.map unpad := by
  induction shapes with
  | nil => rfl
  | cons sh rest ih => rw [unpadAll, ih, List.map_cons]

@[simp] theorem unpad_token (text : String) : (token text).unpad = token text := by
  rw [unpad]

@[simp] theorem unpad_number (text : String) : (rule "number_literal" [token text]).unpad =
    rule "number_literal" [token (Text.unpad text)] := by
  rw [unpad]
  rfl

@[simp] theorem unpad_rule {label : String} (h : label ≠ "number_literal")
    (children : List Shape) : (rule label children).unpad = rule label (children.map unpad) := by
  rw [unpad, if_neg h, unpadAll_eq_map]

end Shape

namespace Node

structure Legible (n : Node) : Prop where
  filled : n.Filled
  valueSpelled : n.ValueSpelled
  worded : n.Worded
  regular : ∀ t ∈ n.leaves, t.Regular

def Unpadded : Node → Prop
  | number _ t _ => ¬ Text.Padded t.text.toList
  | _ => True

section Shape

variable {a : Anchor} {t : Token} {c b e : Node}

theorem shape_number {v : Int} :
    (number a t v).shape = .rule "number_literal" [.token t.text] := rfl

theorem shape_boolean {v : Bool} :
    (boolean a t v).shape = .rule "boolean_literal" [.token t.text] := rfl

theorem shape_ident : (ident a t).shape = .rule "identifier_reference" [.token t.text] := rfl

theorem shape_branch (hc : c.isMissing = false) (hb : b.isMissing = false) :
    (branch a t c b e).shape =
      .rule "if_statement" (c.shape :: b.shape :: (Part.node e).shapes) := by
  rw [shape_eq]
  simp [label, shownParts, Part.shapes_node hc, Part.shapes_node hb]

theorem shape_otherwise (hb : b.isMissing = false) :
    (otherwise a t b).shape = .rule "else_clause" [b.shape] := by
  rw [shape_eq]
  simp [label, shownParts, Part.shapes_node hb]

end Shape

theorem same_iff_unpad_of_label_ne {m n : Node} (h : m.label ≠ n.label) :
    same m n = true ↔ m.shape.unpad = n.shape.unpad := by
  constructor
  · intro hsame
    cases m <;> cases n <;> first | exact absurd rfl h | simp [same] at hsame
  · intro hshape
    unfold shape Shape.unpad at hshape
    exact absurd (Shape.rule.inj hshape).1 h

/-- A part that may be missing is missing on both sides or on none. -/
theorem same_iff_unpad_part {m n : Node} (h : same m n = true ↔ m.shape.unpad = n.shape.unpad) :
    same m n = true ↔
      (Part.node m).shapes.map Shape.unpad = (Part.node n).shapes.map Shape.unpad := by
  cases hm : m.isMissing with
  | true =>
    obtain rfl := eq_missing_iff.mpr hm
    cases hn : n.isMissing with
    | true =>
      obtain rfl := eq_missing_iff.mpr hn
      exact iff_of_true rfl rfl
    | false =>
      rw [Part.shapes_node hn]
      cases n <;> simp_all [same, isMissing]
  | false =>
    rw [Part.shapes_node hm]
    cases hn : n.isMissing with
    | true =>
      obtain rfl := eq_missing_iff.mpr hn
      cases m <;> simp_all [same, isMissing]
    | false =>
      rw [Part.shapes_node hn, List.map_singleton, List.map_singleton, List.singleton_inj, h]

mutual

/-- The shape with its numbers unpadded is all that sameness looks at. -/
theorem same_iff_unpad : (m n : Node) → m.All Legible → n.All Legible →
    (same m n = true ↔ m.shape.unpad = n.shape.unpad)
  | missing, n, _, _ => by
    cases n with
    | missing => exact iff_of_true rfl rfl
    | _ => exact same_iff_unpad_of_label_ne (by simp [label])
  | number a t v, n, hm, hn => by
    cases n with
    | number a' t' v' =>
      obtain ⟨value, hvalue, rfl⟩ := Option.map_eq_some_iff.mp (all_number.mp hm).valueSpelled
      obtain ⟨value', hvalue', rfl⟩ := Option.map_eq_some_iff.mp (all_number.mp hn).valueSpelled
      simp only [same, beq_iff_eq, Int.ofNat.injEq, shape_number, Shape.unpad_number,
        Shape.rule.injEq, List.cons.injEq, Shape.token.injEq, Text.unpad_eq_iff hvalue hvalue',
        and_true, true_and]
    | _ => exact same_iff_unpad_of_label_ne (by simp [label])
  | boolean a t v, n, hm, hn => by
    cases n with
    | boolean a' t' v' =>
      have hm := all_boolean.mp hm
      have hn := all_boolean.mp hn
      have hkind : t.kind = _ := hm.worded
      have hkind' : t'.kind = _ := hn.worded
      have htext := (hm.regular t (by simp [leaves])).text_eq_iff (hn.regular t' (by simp [leaves]))
        (by rw [hkind]; cases v <;> rfl) (by rw [hkind']; cases v' <;> rfl)
      rw [hkind, hkind'] at htext
      cases v <;> cases v' <;> simp [shape_boolean, same, htext]
    | _ => exact same_iff_unpad_of_label_ne (by simp [label])
  | binary a l op r, n, hm, hn => by
    cases n with
    | binary a' l' op' r' =>
      obtain ⟨hm, hl, hr⟩ := all_binary.mp hm
      obtain ⟨hn, hl', hr'⟩ := all_binary.mp hn
      obtain ⟨t, rfl, ht⟩ := hm.worded
      obtain ⟨t', rfl, ht'⟩ := hn.worded
      have htext := (hm.regular t (by simp [leaves])).text_eq_iff (hn.regular t' (by simp [leaves]))
        (Kind.isSome_fixedText?_of_isSign (by simp [Kind.isSign, ht]))
        (Kind.isSome_fixedText?_of_isSign (by simp [Kind.isSign, ht']))
      have hfilled := (filled_binary ..).mp hm.filled
      have hfilled' := (filled_binary ..).mp hn.filled
      rw [shape_binary hfilled.1 hfilled.2.2, shape_binary hfilled'.1 hfilled'.2.2]
      simp [same, htext, same_iff_unpad l l' hl hl', same_iff_unpad r r' hr hr', and_assoc,
        and_left_comm]
    | _ => exact same_iff_unpad_of_label_ne (by simp [label])
  | unary a op e, n, hm, hn => by
    cases n with
    | unary a' op' e' =>
      obtain ⟨hm, he⟩ := all_unary.mp hm
      obtain ⟨hn, he'⟩ := all_unary.mp hn
      obtain ⟨t, rfl, ht⟩ := hm.worded
      obtain ⟨t', rfl, ht'⟩ := hn.worded
      have htext := (hm.regular t (by simp [leaves])).text_eq_iff (hn.regular t' (by simp [leaves]))
        (Kind.isSome_fixedText?_of_isSign (by simp [Kind.isSign, ht]))
        (Kind.isSome_fixedText?_of_isSign (by simp [Kind.isSign, ht']))
      rw [shape_unary ((filled_unary ..).mp hm.filled).2,
        shape_unary ((filled_unary ..).mp hn.filled).2]
      simp [same, htext, same_iff_unpad e e' he he']
    | _ => exact same_iff_unpad_of_label_ne (by simp [label])
  | paren a t e u, n, hm, hn => by
    cases n with
    | paren a' t' e' u' =>
      obtain ⟨hm, he⟩ := all_paren.mp hm
      obtain ⟨hn, he'⟩ := all_paren.mp hn
      rw [shape_paren ((filled_paren ..).mp hm.filled),
        shape_paren ((filled_paren ..).mp hn.filled)]
      simp [same, same_iff_unpad e e' he he']
    | _ => exact same_iff_unpad_of_label_ne (by simp [label])
  | assign a name op e typeWord, n, hm, hn => by
    cases n with
    | assign a' name' op' e' typeWord' =>
      obtain ⟨hm, he⟩ := all_assign.mp hm
      obtain ⟨hn, he'⟩ := all_assign.mp hn
      obtain ⟨-, rfl, t, rfl, ht⟩ := hm.worded
      obtain ⟨-, rfl, t', rfl, ht'⟩ := hn.worded
      have htext := (hm.regular t (by simp [leaves])).text_eq_iff (hn.regular t' (by simp [leaves]))
        (Kind.isSome_fixedText?_of_isSign (by simp [Kind.isSign, ht]))
        (Kind.isSome_fixedText?_of_isSign (by simp [Kind.isSign, ht']))
      rw [shape_assign ((filled_assign ..).mp hm.filled).2,
        shape_assign ((filled_assign ..).mp hn.filled).2]
      simp [same, htext, same_iff_unpad e e' he he', and_assoc]
    | _ => exact same_iff_unpad_of_label_ne (by simp [label])
  | declare a typeWord name op e, n, hm, hn => by
    cases n with
    | declare a' typeWord' name' op' e' =>
      obtain ⟨hm, he⟩ := all_declare.mp hm
      obtain ⟨hn, he'⟩ := all_declare.mp hn
      have hfilled := ((filled_declare ..).mp hm.filled).2
      have hfilled' := ((filled_declare ..).mp hn.filled).2
      have ih := same_iff_unpad e e' he he'
      cases typeWord with
      | none =>
        cases typeWord' with
        | none => simp [shape_declare hfilled, shape_declare hfilled', same, ih]
        | some w' => simp [shape_declare hfilled, shape_typedDeclare hfilled', same]
      | some w =>
        cases typeWord' with
        | none => simp [shape_typedDeclare hfilled, shape_declare hfilled', same]
        | some w' =>
          have htext := (hm.regular w (by simp [leaves])).text_eq_iff
            (hn.regular w' (by simp [leaves]))
            (Kind.isSome_fixedText?_of_isSign (by simp [Kind.isSign, hm.worded.1 w rfl]))
            (Kind.isSome_fixedText?_of_isSign (by simp [Kind.isSign, hn.worded.1 w' rfl]))
          simp [shape_typedDeclare hfilled, shape_typedDeclare hfilled', same, htext, ih, and_assoc,
            and_left_comm]
    | _ => exact same_iff_unpad_of_label_ne (by simp [label])
  | ident a t, n, _, _ => by
    cases n with
    | ident a' t' => simp [same, shape_ident]
    | _ => exact same_iff_unpad_of_label_ne (by simp [label])
  | branch a t c b e, n, hm, hn => by
    cases n with
    | branch a' t' c' b' e' =>
      obtain ⟨hm, hc, hb, he⟩ := all_branch.mp hm
      obtain ⟨hn, hc', hb', he'⟩ := all_branch.mp hn
      have hfilled := (filled_branch ..).mp hm.filled
      have hfilled' := (filled_branch ..).mp hn.filled
      have helse := same_iff_unpad_part (same_iff_unpad e e' he he')
      rw [shape_branch hfilled.1 hfilled.2, shape_branch hfilled'.1 hfilled'.2]
      simp [same, same_iff_unpad c c' hc hc', same_iff_unpad b b' hb hb', helse, and_assoc]
    | _ => exact same_iff_unpad_of_label_ne (by simp [label])
  | otherwise a t b, n, hm, hn => by
    cases n with
    | otherwise a' t' b' =>
      obtain ⟨hm, hb⟩ := all_otherwise.mp hm
      obtain ⟨hn, hb'⟩ := all_otherwise.mp hn
      rw [shape_otherwise ((filled_otherwise ..).mp hm.filled),
        shape_otherwise ((filled_otherwise ..).mp hn.filled)]
      simp [same, same_iff_unpad b b' hb hb']
    | _ => exact same_iff_unpad_of_label_ne (by simp [label])
  | block a t body u, n, hm, hn => by
    cases n with
    | block a' t' body' u' =>
      obtain ⟨hm, hbody⟩ := all_block.mp hm
      obtain ⟨hn, hbody'⟩ := all_block.mp hn
      rw [shape_block ((filled_block ..).mp hm.filled),
        shape_block ((filled_block ..).mp hn.filled)]
      simp [same, sameAll_iff_unpad body body' hbody hbody']
    | _ => exact same_iff_unpad_of_label_ne (by simp [label])

theorem sameAll_iff_unpad : (ms ns : List Node) → (∀ m ∈ ms, m.All Legible) →
    (∀ n ∈ ns, n.All Legible) →
    (sameAll ms ns = true ↔ (ms.map shape).map Shape.unpad = (ns.map shape).map Shape.unpad)
  | [], [], _, _ => iff_of_true rfl rfl
  | [], _ :: _, _, _ => iff_of_false (by simp [sameAll]) (by simp)
  | _ :: _, [], _, _ => iff_of_false (by simp [sameAll]) (by simp)
  | m :: ms, n :: ns, hm, hn => by
    obtain ⟨hm, hms⟩ := List.forall_mem_cons.mp hm
    obtain ⟨hn, hns⟩ := List.forall_mem_cons.mp hn
    have ih := sameAll_iff_unpad ms ns hms hns
    simp_all [sameAll, same_iff_unpad m n hm hn]

end

mutual

theorem unpad_shape : (n : Node) → n.All Legible → n.All Unpadded → n.shape.unpad = n.shape
  | missing, _, _ => rfl
  | number a t v, hn, hu => by
    have hn := all_number.mp hn
    have hdigits := (hn.regular t (by simp [leaves])).digits hn.worded
    rw [shape_number, Shape.unpad_number,
      Text.unpad_eq_self hdigits.1 hdigits.2 (all_number.mp hu)]
  | boolean a t v, _, _ => by simp [shape_boolean]
  | binary a l op r, hn, hu => by
    obtain ⟨hn, hl, hr⟩ := all_binary.mp hn
    obtain ⟨-, hul, hur⟩ := all_binary.mp hu
    obtain ⟨t, rfl, -⟩ := hn.worded
    have hfilled := (filled_binary ..).mp hn.filled
    simp [shape_binary hfilled.1 hfilled.2.2, unpad_shape l hl hul, unpad_shape r hr hur]
  | unary a op e, hn, hu => by
    obtain ⟨hn, he⟩ := all_unary.mp hn
    obtain ⟨t, rfl, -⟩ := hn.worded
    simp [shape_unary ((filled_unary ..).mp hn.filled).2, unpad_shape e he (all_unary.mp hu).2]
  | paren a t e u, hn, hu => by
    obtain ⟨hn, he⟩ := all_paren.mp hn
    simp [shape_paren ((filled_paren ..).mp hn.filled), unpad_shape e he (all_paren.mp hu).2]
  | assign a name op e typeWord, hn, hu => by
    obtain ⟨hn, he⟩ := all_assign.mp hn
    obtain ⟨-, rfl, t, rfl, -⟩ := hn.worded
    simp [shape_assign ((filled_assign ..).mp hn.filled).2, unpad_shape e he (all_assign.mp hu).2]
  | declare a typeWord name op e, hn, hu => by
    obtain ⟨hn, he⟩ := all_declare.mp hn
    have hfilled := ((filled_declare ..).mp hn.filled).2
    have ih := unpad_shape e he (all_declare.mp hu).2
    cases typeWord with
    | none => simp [shape_declare hfilled, ih]
    | some w => simp [shape_typedDeclare hfilled, ih]
  | ident a t, _, _ => by simp [shape_ident]
  | branch a t c b e, hn, hu => by
    obtain ⟨hn, hc, hb, he⟩ := all_branch.mp hn
    obtain ⟨-, huc, hub, hue⟩ := all_branch.mp hu
    have hfilled := (filled_branch ..).mp hn.filled
    have helse : (Part.node e).shapes.map Shape.unpad = (Part.node e).shapes := by
      cases hmissing : e.isMissing with
      | true => rw [← eq_missing_iff.mpr hmissing, Part.shapes_missing, List.map_nil]
      | false => rw [Part.shapes_node hmissing, List.map_singleton, unpad_shape e he hue]
    simp [shape_branch hfilled.1 hfilled.2, unpad_shape c hc huc, unpad_shape b hb hub, helse]
  | otherwise a t b, hn, hu => by
    obtain ⟨hn, hb⟩ := all_otherwise.mp hn
    simp [shape_otherwise ((filled_otherwise ..).mp hn.filled),
      unpad_shape b hb (all_otherwise.mp hu).2]
  | block a t body u, hn, hu => by
    obtain ⟨hn, hbody⟩ := all_block.mp hn
    rw [shape_block ((filled_block ..).mp hn.filled), Shape.unpad_rule (by simp),
      unpad_shapes body hbody (all_block.mp hu).2]

theorem unpad_shapes : (ns : List Node) → (∀ n ∈ ns, n.All Legible) →
    (∀ n ∈ ns, n.All Unpadded) → (ns.map shape).map Shape.unpad = ns.map shape
  | [], _, _ => rfl
  | n :: ns, hn, hu => by
    obtain ⟨hn, hns⟩ := List.forall_mem_cons.mp hn
    obtain ⟨hu, hus⟩ := List.forall_mem_cons.mp hu
    rw [List.map_cons, List.map_cons, unpad_shape n hn hu, unpad_shapes ns hns hus]

end

end Node

section Parse

variable {reading reading' : Reading} {file file' source source' : String}
variable {parsed parsed' : Parsed}

theorem legible_of_parse (h : parse reading file source = .ok parsed)
    (hclean : parsed.diagnostics = #[]) : ∀ n ∈ parsed.tree.statements, n.All Node.Legible := by
  obtain ⟨ts, e, hcuts, -⟩ := exists_cuts_of_source file source
  obtain ⟨hbad, hspells⟩ := spellsAll_of_parse h hclean hcuts
  obtain ⟨hleaves, hwhole⟩ := hspells.exact
  have hregular : ∀ t ∈ Node.leavesAll parsed.tree.statements, t.Regular := by
    rw [← hleaves]
    exact fun t ht => ⟨hcuts.isLexeme t ht, hbad t ht⟩
  intro n hn m hm
  obtain ⟨-, hfilled, -, hspelled⟩ := hwhole n hn
  exact ⟨hfilled m hm, hspelled m hm, hspells.worded n hn m hm,
    Node.all_of_leavesAll hregular n hn m hm⟩

theorem unpadded_of_parse (h : parse reading file source = .ok parsed)
    (hclean : parsed.diagnostics = #[])
    (hpadded : ∀ t ∈ tokensOf file source, t.kind = .number → ¬ Text.Padded t.text.toList) :
    ∀ n ∈ parsed.tree.statements, n.All Node.Unpadded := by
  obtain ⟨ts, e, hcuts, htokens⟩ := exists_cuts_of_source file source
  have hleaves := (spellsAll_of_parse h hclean hcuts).2.exact.1
  have hnumbers : ∀ t ∈ Node.leavesAll parsed.tree.statements,
      t.kind = .number → ¬ Text.Padded t.text.toList := by
    rw [← hleaves]
    exact fun t ht => hpadded t (htokens ▸ List.mem_append_left [e] ht)
  intro n hn m hm
  have hworded := (legible_of_parse h hclean n hn m hm).worded
  cases m with
  | number a t v => exact Node.all_of_leavesAll hnumbers n hn _ hm t (by simp [Node.leaves]) hworded
  | _ => trivial

/-- Of two sources without a complaint, those of one shape are the same program; and those that are
the same program have one shape, unless a number is padded. -/
theorem shape_faithful (h : parse reading file source = .ok parsed)
    (hclean : parsed.diagnostics = #[]) (h' : parse reading' file' source' = .ok parsed')
    (hclean' : parsed'.diagnostics = #[]) :
    ((Outline.ofTree parsed.tree).shape = (Outline.ofTree parsed'.tree).shape →
      Node.sameAll parsed.tree.statements parsed'.tree.statements = true) ∧
    (Node.sameAll parsed.tree.statements parsed'.tree.statements = true →
      (∀ t ∈ tokensOf file source, t.kind = .number → ¬ Text.Padded t.text.toList) →
      (∀ t ∈ tokensOf file' source', t.kind = .number → ¬ Text.Padded t.text.toList) →
      (Outline.ofTree parsed.tree).shape = (Outline.ofTree parsed'.tree).shape) := by
  obtain ⟨ts, e, hcuts, -⟩ := exists_cuts_of_source file source
  obtain ⟨ts', e', hcuts', -⟩ := exists_cuts_of_source file' source'
  have hlegible := legible_of_parse h hclean
  have hlegible' := legible_of_parse h' hclean'
  have hsame := Node.sameAll_iff_unpad _ _ hlegible hlegible'
  rw [(spellsAll_of_parse h hclean hcuts).2.shape_ofTree,
    (spellsAll_of_parse h' hclean' hcuts').2.shape_ofTree, Shape.rule.injEq]
  constructor
  · rintro ⟨-, hshapes⟩
    exact hsame.mpr (congrArg (List.map Shape.unpad) hshapes)
  · intro heq hpadded hpadded'
    have hshapes := hsame.mp heq
    rw [Node.unpad_shapes _ hlegible (unpadded_of_parse h hclean hpadded),
      Node.unpad_shapes _ hlegible' (unpadded_of_parse h' hclean' hpadded')] at hshapes
    exact ⟨rfl, hshapes⟩

end Parse

theorem shape_faithful_layout :
    ∃ parsed parsed', parse .direct "" "if n>=-(2+0){b:=true}" = .ok parsed ∧
      parsed.diagnostics = #[] ∧
      parse (.threaded 1 []) "b" "if n >= -(2 + 0)\n{ b := true }" = .ok parsed' ∧
      parsed'.diagnostics = #[] ∧
      Node.sameAll parsed.tree.statements parsed'.tree.statements = true ∧
      (Outline.ofTree parsed.tree).shape = (Outline.ofTree parsed'.tree).shape := by
  obtain ⟨parsed, h, hrest⟩ := exists_eq_ok_of_any (x := parse .direct "" "if n>=-(2+0){b:=true}")
    (P := fun parsed => parsed.diagnostics.isEmpty &&
      (parse (.threaded 1 []) "b" "if n >= -(2 + 0)\n{ b := true }").toOption.any
        fun parsed' => parsed'.diagnostics.isEmpty &&
          Node.sameAll parsed.tree.statements parsed'.tree.statements) (by decide +kernel)
  rw [Bool.and_eq_true, Array.isEmpty_iff] at hrest
  obtain ⟨parsed', h', hrest'⟩ := exists_eq_ok_of_any hrest.2
  rw [Bool.and_eq_true, Array.isEmpty_iff] at hrest'
  exact ⟨parsed, parsed', h, hrest.1, h', hrest'.1, hrest'.2,
    (shape_faithful h hrest.1 h' hrest'.1).2 hrest'.2 (by decide +kernel) (by decide +kernel)⟩

end Abacus
