import Abacus.Proofs.Parser.Anchored
import Abacus.Proofs.Parser.Recovery
import Abacus.Proofs.Scanner.Coverage

/-! The leaves of a tree stand in the order of the source, placeholders included, whatever is wrong
with it; and so do its nodes, from the root down. -/
namespace Abacus

/-- From `low` to `high` through `xs`, and never down. -/
def Climbs (low : Int) : List Int → Int → Prop
  | [], high => low ≤ high
  | x :: xs, high => low ≤ x ∧ Climbs x xs high

namespace Climbs

variable {low mid high : Int} {xs ys : List Int}

theorem from_below (h : Climbs mid xs high) (hlow : low ≤ mid) : Climbs low xs high := by
  cases xs with
  | nil => exact Int.le_trans hlow h
  | cons x xs => exact ⟨Int.le_trans hlow h.1, h.2⟩

theorem to_above (h : Climbs low xs mid) (hhigh : mid ≤ high) : Climbs low xs high := by
  induction xs generalizing low with
  | nil => exact Int.le_trans h hhigh
  | cons x xs ih => exact ⟨h.1, ih h.2⟩

theorem append (h : Climbs low xs mid) (h' : Climbs mid ys high) : Climbs low (xs ++ ys) high := by
  induction xs generalizing low with
  | nil => exact h'.from_below h
  | cons x xs ih => exact ⟨h.1, ih h.2⟩

theorem low_le (h : Climbs low xs high) : ∀ x ∈ xs, low ≤ x := by
  induction xs generalizing low with
  | nil => exact List.forall_mem_nil _
  | cons x xs ih =>
    exact List.forall_mem_cons.mpr ⟨h.1, fun y hy => Int.le_trans h.1 (ih h.2 y hy)⟩

theorem pairwise (h : Climbs low xs high) : xs.Pairwise (· ≤ ·) := by
  induction xs generalizing low with
  | nil => exact .nil
  | cons x xs ih => exact .cons h.2.low_le (ih h.2)

end Climbs

def places (ts : List Token) : List Int := ts.map fun t => (t.offset : Int)

@[simp] theorem places_nil : places [] = [] := rfl

@[simp] theorem places_cons (t : Token) (ts : List Token) :
    places (t :: ts) = (t.offset : Int) :: places ts := rfl

@[simp] theorem places_append (ts us : List Token) : places (ts ++ us) = places ts ++ places us :=
  List.map_append

namespace Stand

def place (s : Stand) : Int := s.head.offset

def Sorted (s : Stand) : Prop := (s.ahead ++ [s.eof]).Pairwise fun t u => t.offset ≤ u.offset

theorem head_mem (s : Stand) : s.head ∈ s.ahead ++ [s.eof] := by
  cases hs : s.ahead with
  | nil => simp [head_of_nil hs]
  | cons t ts => simp [head_of_cons hs]

variable {s s' : Stand}

theorem Sorted.of_leads (h : s.Sorted) (hleads : s.Leads s') : s'.Sorted := by
  obtain ⟨used, hahead, -⟩ := hleads.used
  unfold Sorted at h ⊢
  rw [hahead, List.append_assoc, ← hleads.eof] at h
  exact (List.pairwise_append.mp h).2.1

theorem Sorted.place_le (h : s.Sorted) (hleads : s.Leads s') : s.place ≤ s'.place := by
  obtain ⟨used, hahead, -⟩ := hleads.used
  cases used with
  | nil =>
    have hhead : s'.head = s.head := by rw [head, look, head, look, hahead, hleads.eof]; rfl
    exact Int.le_of_eq (by rw [place, place, hhead])
  | cons t used =>
    unfold Sorted at h
    rw [hahead, List.cons_append, List.cons_append, List.append_assoc, ← hleads.eof] at h
    have hle := (List.pairwise_cons.mp h).1 s'.head (List.mem_append_right used s'.head_mem)
    rw [place, place, head_of_cons hahead]
    exact Int.ofNat_le.mpr hle

theorem Sorted.climbs_head (h : s.Sorted) : Climbs s.place (places [s.head]) s.advance.place :=
  ⟨Int.le_refl _, h.place_le s.leads_advance⟩

theorem Sorted.climbs_pair (h : s.Sorted) :
    Climbs s.place (places [s.head, s.look 1]) (s.skip 2).place := by
  have hnext := (h.of_leads s.leads_advance).climbs_head
  rw [head_advance, advance, advance, skip_skip] at hnext
  exact h.climbs_head.append hnext

end Stand

/-- A placeholder stands where the token was expected. -/
theorem Expects.climbs {kind : Kind} {s s' : Stand} {t : Token} (h : Expects kind s t s')
    (hs : s.Sorted) : Climbs s.place (places [t]) s'.place := by
  cases h with
  | found _ => exact hs.climbs_head
  | absent _ => exact ⟨Int.le_refl _, Int.le_refl _⟩

/-- What a rule puts into its node comes after what it goes on from, and before where it ends. -/
theorem Reads.climbs {rule : Rule} {n : Nat} {s s' : Stand} {a : Node} (h : Reads rule n s a s')
    (hs : s.Sorted) {low : Int} (hlow : Climbs low (places rule.behind) s.place) :
    Climbs low (places a.leaves) s'.place := by
  induction h generalizing low with
  | deepStatement => exact hlow.to_above (hs.place_le (Stand.leads_pastRegion _))
  | deepExpression => exact hlow.to_above (hs.place_le (Stand.leads_pastRegion _))
  | branch _ _ ih => exact ih hs hlow
  | @block n s s' a _ _ ih =>
    exact ih (hs.of_leads s.leads_advance) (hs.climbs_head.from_below hlow)
  | @typedDeclaration n s s₁ s₂ s' name operator init _ expectName expectSign _ ih =>
    have hs₀ := hs.of_leads s.leads_advance
    have hs₁ := hs₀.of_leads expectName.leads
    have hinit := ih (hs₁.of_leads expectSign.leads) (Int.le_refl _)
    exact ((hs.climbs_head.append (expectName.climbs hs₀)).append
      ((expectSign.climbs hs₁).append hinit)).from_below hlow
  | @declaration n s s' init _ _ _ ih =>
    have hinit := ih (hs.of_leads (s.leads_skip 2)) (Int.le_refl _)
    exact (hs.climbs_pair.append hinit).from_below hlow
  | plain _ _ ih => exact ih hs hlow
  | @lone n s s₁ s₂ condition body _ readCondition _ _ ih ih' =>
    have hs₀ := hs.of_leads s.leads_advance
    have hcondition := ih hs₀ (Int.le_refl _)
    have hbody := ih' (hs₀.of_leads readCondition.leads) (Int.le_refl _)
    have hall := ((hs.climbs_head.append hcondition).append hbody).from_below hlow
    simpa [Node.leaves] using hall
  | @last n s s₁ s₂ s' condition body alternative _ readCondition readBody _ _ _ ih ih' ih''
  | @link n s s₁ s₂ s' condition body alternative _ readCondition readBody _ _ _ ih ih' ih'' =>
    have hs₀ := hs.of_leads s.leads_advance
    have hs₁ := hs₀.of_leads readCondition.leads
    have hs₂ := hs₁.of_leads readBody.leads
    have hcondition := ih hs₀ (Int.le_refl _)
    have hbody := ih' hs₁ (Int.le_refl _)
    have helse := hs₂.climbs_head.append
      (ih'' (hs₂.of_leads s₂.leads_advance) (Int.le_refl _))
    have hall := ((hs.climbs_head.append hcondition).append (hbody.append helse)).from_below hlow
    simpa [Node.leaves] using hall
  | close _ expectBrace => simpa [Node.leaves, Rule.behind] using hlow.append (expectBrace.climbs hs)
  | @item n s s₁ s' lbrace done stmt a _ _ readItem _ ih ih' =>
    have hs' := hs.of_leads readItem.leads.movedOn
    have hmoved := (hs.of_leads readItem.leads).place_le (s.leads_movedOn s₁)
    apply ih' hs'
    cases hmissing : stmt.isMissing with
    | true => exact hlow.to_above (hs.place_le readItem.leads.movedOn)
    | false =>
      have hitem := hlow.append ((ih hs (Int.le_refl _)).to_above hmoved)
      simpa [Rule.behind, Node.leavesAll_eq_flatMap] using hitem
  | expression readLeft _ ih ih' => exact ih' (hs.of_leads readLeft.leads) (ih hs hlow)
  | stop _ => exact hlow
  | @operator n s s₁ s' parent left right a _ _ readRight _ ih ih' =>
    have hs₀ := hs.of_leads s.leads_advance
    apply ih' (hs₀.of_leads readRight.leads)
    have hright := hlow.append (hs.climbs_head.append (ih hs₀ (Int.le_refl _)))
    simpa [Rule.behind, Node.leaves] using hright
  | @unary n s s' parent e _ _ _ ih =>
    exact (hs.climbs_head.append (ih (hs.of_leads s.leads_advance) (Int.le_refl _))).from_below hlow
  | @bare n s s' parent a _ _ ih =>
    have hskip : s.Leads s.pastBad := s.leads_skip _
    exact ih (hs.of_leads hskip) (hlow.to_above (hs.place_le hskip))
  | number _ _ _ => exact hs.climbs_head.from_below hlow
  | bigNumber _ _ _ => exact hs.climbs_head.from_below hlow
  | boolean _ => exact hs.climbs_head.from_below hlow
  | @paren n s s₁ s' skipped e rparen _ read expectParen ih =>
    have hs₀ := hs.of_leads s.leads_advance
    have hinner := (ih hs₀ (Int.le_refl _)).append (expectParen.climbs (hs₀.of_leads read.leads))
    have hall := (hs.climbs_head.append hinner).from_below hlow
    simpa [Node.leaves] using hall
  | @assignment n s s' skipped right _ _ _ ih =>
    have hright := ih (hs.of_leads (s.leads_skip 2)) (Int.le_refl _)
    exact (hs.climbs_pair.append hright).from_below hlow
  | identifier _ _ => exact hs.climbs_head.from_below hlow
  | nothing _ => exact hlow.to_above (hs.place_le (Stand.leads_pastNonsense _ _))

theorem ReadsAll.climbs {n : Nat} {s s' : Stand} (h : ReadsAll n s s') (hs : s.Sorted) {low : Int}
    (hlow : Climbs low (places (Node.leavesAll s.statements)) s.place) :
    Climbs low (places (Node.leavesAll s'.statements)) s'.place := by
  induction h with
  | done _ => exact hlow
  | @next s s₁ s' stmt _ readFirst _ ih =>
    have hs' : (s.movedOn s₁).Sorted := hs.of_leads readFirst.leads.movedOn
    have hmoved := (hs.of_leads readFirst.leads).place_le (s.leads_movedOn s₁)
    have hstatements := readFirst.leads.movedOn.statements
    cases hmissing : stmt.isMissing with
    | true =>
      rw [Stand.keep_of_isMissing hmissing] at ih
      apply ih hs'
      rw [hstatements]
      exact hlow.to_above (hs.place_le readFirst.leads.movedOn)
    | false =>
      rw [Stand.keep_of_not_isMissing hmissing] at ih
      have hfirst : Climbs low (places (Node.leavesAll ((s.movedOn s₁).statements ++ [stmt])))
          (s.movedOn s₁).place := by
        have hboth := hlow.append ((readFirst.climbs hs (Int.le_refl _)).to_above hmoved)
        simpa [hstatements, Node.leavesAll_eq_flatMap] using hboth
      exact ih hs' hfirst

namespace Node

def start? (n : Node) : Option Int := n.anchor?.map (·.offset)

theorem exists_start_eq {n : Node} (h : n.isMissing = false) : ∃ x, n.start? = some x := by
  cases n with
  | missing => cases h
  | _ => exact ⟨_, rfl⟩

theorem Anchored.exists_leaf {n : Node} (h : n.Anchored) (hn : n.isMissing = false) :
    ∃ t ts, n.leaves = t :: ts ∧ n.start? = some (t.offset : Int) := by
  obtain ⟨x, hx⟩ := exists_start_eq hn
  unfold Anchored at h
  rw [start?, h] at hx
  obtain ⟨t, ht, -⟩ := Option.map_eq_some_iff.mp hx
  obtain ⟨ts, hleaves⟩ := List.head?_eq_some_iff.mp ht
  exact ⟨t, ts, hleaves, by rw [start?, h, ht, Option.map_some]⟩

end Node

theorem Part.climbs_nodes (parts : List Part) {low high : Int}
    (hanchored : ∀ n ∈ parts.flatMap Part.nodes, n.Anchored)
    (h : Climbs low (places (parts.flatMap Part.leaves)) high) :
    Climbs low ((parts.flatMap Part.nodes).filterMap Node.start?) high := by
  induction parts using Part.traversal generalizing low with
  | nil => exact h
  | token t rest ih => exact (ih hanchored h.2).from_below h.1
  | node n rest ih =>
    have hnodes := flatMap_nodes_node_cons n rest
    have hleaves := flatMap_leaves_node_cons n rest
    have hbelow : ∀ m ∈ (n.parts ++ rest).flatMap Part.nodes, m.Anchored := fun m hm =>
      hanchored m (hnodes ▸ List.mem_append_right _ hm)
    cases hmissing : n.isMissing with
    | true =>
      rw [hnodes, hmissing]
      exact ih hbelow (hleaves ▸ h)
    | false =>
      have hn : n.Anchored := hanchored n (by simp [hnodes, hmissing])
      obtain ⟨t, ts, hfirst, hstart⟩ := hn.exists_leaf hmissing
      -- Below the node the climb begins anew, at its first leaf.
      have hclimbs : Climbs t.offset (places ((node n :: rest).flatMap Part.leaves)) high := by
        rw [List.flatMap_cons, leaves_node, hfirst] at h ⊢
        exact ⟨Int.le_refl _, h.2⟩
      have hle : low ≤ t.offset := by
        rw [List.flatMap_cons, leaves_node, hfirst] at h
        exact h.1
      rw [hleaves] at hclimbs
      rw [hnodes, hmissing]
      simp only [Bool.false_eq_true, if_false, List.singleton_append, List.filterMap_cons, hstart]
      exact ⟨hle, ih hbelow hclimbs⟩

theorem Node.climbs_walk {ns : List Node} (hanchored : ∀ n ∈ ns, n.All Anchored) {low high : Int}
    (h : Climbs low (places (leavesAll ns)) high) : Climbs low ((walk ns).filterMap start?) high := by
  rw [leavesAll_eq_flatMap] at h
  have hnodes := @Part.climbs_nodes (ns.map .node) low high
  simp only [List.flatMap_map, Part.nodes_node, Part.leaves_node] at hnodes
  rw [walk_eq_flatMap]
  exact hnodes (List.forall_mem_flatMap.mpr hanchored) h

open Scanner (Cuts)

theorem sorted_ofCuts {file source : String} {ts : List Token} {e : Token}
    (h : Cuts file ⟨source.toList, 0, 1, 1⟩ ts e) (limit : Nat) : (Stand.ofCuts h limit).Sorted := by
  have hcovers : Scanner.Covers source.toList 0 ts e := h.covers (by simp) (Nat.zero_le _)
  have hwidth : ∀ t ∈ ts ++ [e], t.offset ≤ t.stop := by
    rw [List.forall_mem_append, List.forall_mem_singleton, hcovers.offset_eof, hcovers.stop_eof]
    exact ⟨fun t ht => Nat.le_of_lt (hcovers.nonempty t ht), Nat.le_refl _⟩
  refine hcovers.ordered.imp_of_mem fun ht _ hle => ?_
  exact Nat.le_trans (hwidth _ ht) hle

theorem real_tokens_of_parse {reading : Reading} {file source : String} {parsed : Parsed}
    (h : parse reading file source = .ok parsed) {ts : List Token} {e : Token}
    (hcuts : Cuts file ⟨source.toList, 0, 1, 1⟩ ts e) :
    (real (Node.tokens parsed.tree.statements)).Sublist ts ∧
      ∀ t ∈ real (Node.tokens parsed.tree.statements), t.kind ≠ .bad := by
  obtain ⟨s', hall, hstatements, -⟩ := exists_readsAll_of_parse h hcuts
  obtain ⟨kept, hleaves, -, used, hahead, hsublist, hbad, -⟩ := hall.keeps
  have hkept : real (Node.tokens parsed.tree.statements) = kept := by
    rw [hstatements, Node.tokens_eq_flatMap, ← Node.leavesAll_eq_flatMap, hleaves]
    rfl
  have hused : ts = used := by
    rw [hall.ahead_eq_nil, List.append_nil] at hahead
    exact hahead
  rw [hkept, hused]
  exact ⟨hsublist, hbad⟩

/-- The leaves of every tree, whatever is wrong with its source: apart from placeholders they are
tokens of the source in their order, and never its end or a stray character; with placeholders they
never go back; every node has one and stands where its first one does; and so the nodes, each before
what is below it, never go back either. -/
theorem leaves_in_order_of_parse {reading : Reading} {file source : String} {parsed : Parsed}
    (h : parse reading file source = .ok parsed) :
    ((Node.tokens parsed.tree.statements).filter (·.kind ≠ .unexpected)).Sublist
        (tokensOf file source) ∧
      (∀ t ∈ Node.tokens parsed.tree.statements, t.kind ≠ .eof ∧ t.kind ≠ .bad) ∧
      (Node.tokens parsed.tree.statements).Pairwise (fun t u => t.offset ≤ u.offset) ∧
      (∀ n ∈ Node.walk parsed.tree.statements,
        ∃ t, (Node.tokens [n]).head? = some t ∧ n.start? = some (t.offset : Int)) ∧
      ((Node.walk parsed.tree.statements).filterMap Node.start?).Pairwise (· ≤ ·) := by
  obtain ⟨ts, e, hcuts, htokens⟩ := exists_cuts_of_source file source
  obtain ⟨hsublist, hbad⟩ := real_tokens_of_parse h hcuts
  obtain ⟨s', hall, hstatements, -⟩ := exists_readsAll_of_parse h hcuts
  have hanchored := anchored_of_parse h
  have hclimbs := hall.climbs (sorted_ofCuts hcuts _) (Int.le_refl _)
  rw [← hstatements] at hclimbs
  refine ⟨hsublist.trans (htokens ▸ List.sublist_append_left ts [e]), fun t ht => ?_, ?_,
    fun n hn => ?_, (Node.climbs_walk hanchored hclimbs).pairwise⟩
  · by_cases hplaceholder : t.kind = .unexpected
    · simp [hplaceholder]
    · have hreal : t ∈ real (Node.tokens parsed.tree.statements) :=
        List.mem_filter.mpr ⟨ht, by simpa using hplaceholder⟩
      exact ⟨hcuts.kind_ne_eof t (hsublist.subset hreal), hbad t hreal⟩
  · have hpairwise := hclimbs.pairwise
    rw [places, List.pairwise_map] at hpairwise
    rw [Node.tokens_eq_flatMap, ← Node.leavesAll_eq_flatMap]
    exact hpairwise.imp fun hle => Int.ofNat_le.mp hle
  · have hn' : n.Anchored := Node.forall_walk_iff.mpr hanchored n hn
    obtain ⟨t, ts, hleaves, hstart⟩ := hn'.exists_leaf (Node.isMissing_of_mem_walk hn)
    refine ⟨t, ?_, hstart⟩
    rw [Node.tokens_eq_flatMap, List.flatMap_singleton, hleaves, List.head?_cons]

theorem leaves_in_order_of_unclosed_block :
    ∃ parsed, parse .direct "" "\x7b ) number = ( 1 + $ 2" = .ok parsed ∧
      (Node.tokens parsed.tree.statements).map (·.offset) = [0, 4, 11, 13, 15, 17, 21, 22, 22] ∧
      (Node.tokens parsed.tree.statements).Pairwise (fun t u => t.offset ≤ u.offset) := by
  obtain ⟨parsed, hparsed, hoffsets⟩ :=
    exists_eq_ok_of_any (x := parse .direct "" "\x7b ) number = ( 1 + $ 2")
      (P := fun parsed => (Node.leavesAll parsed.tree.statements).map (·.offset) =
        [0, 4, 11, 13, 15, 17, 21, 22, 22]) (by decide +kernel)
  refine ⟨parsed, hparsed, ?_, (leaves_in_order_of_parse hparsed).2.2.1⟩
  rw [Node.tokens_eq_flatMap, ← Node.leavesAll_eq_flatMap]
  exact of_decide_eq_true hoffsets

end Abacus
