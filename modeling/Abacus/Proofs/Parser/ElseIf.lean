import Abacus.Proofs.Parser.Source
import Abacus.Proofs.Tree.Traversal

/-! An else-if chain by recursion to the right. The loop that collects the links of a chain first
and wires them afterwards, from the last one back, comes to the same: it solves the equation of the
recursive rule, and nothing else does. -/
namespace Abacus

namespace ParseM

variable {σ : Type} [TokenFeed σ] [FaithfulFeed σ] {α β : Type} {s : Stand}

def SameFrom (s : Stand) (act act' : ParseM σ α) : Prop := ∀ p, p.Shows s → act p = act' p

theorem SameFrom.trans {act act' act'' : ParseM σ α} (h : SameFrom s act act')
    (h' : SameFrom s act' act'') : SameFrom s act act'' :=
  fun p hp => (h p hp).trans (h' p hp)

theorem sameFrom_refl (act : ParseM σ α) : SameFrom s act act := fun _ _ => rfl

theorem sameFrom_bind {act : ParseM σ β} {k k' : β → ParseM σ α} {P : β → Stand → Prop}
    (hact : Does act s P) (hk : ∀ b s', P b s' → SameFrom s' (k b) (k' b)) :
    SameFrom s (act >>= k) (act >>= k') := by
  intro p hp
  have hdone := hact p hp
  rw [bind_apply, bind_apply]
  rcases hresult : act p with ⟨result, p'⟩
  rw [hresult] at hdone
  cases result with
  | error fault => rfl
  | ok b =>
    obtain ⟨s', -, hshows, hP⟩ := hdone
    exact hk b s' hP p' hshows

theorem SameFrom.bind {act act' : ParseM σ β} (h : SameFrom s act act') (k : β → ParseM σ α) :
    SameFrom s (act >>= k) (act' >>= k) := by
  intro p hp
  rw [bind_apply, bind_apply, h p hp]

theorem sameFrom_sees_bind {k k' : Bool → ParseM σ α} {kinds : List Kind}
    (hk : SameFrom s (k (kinds.contains s.head.kind)) (k' (kinds.contains s.head.kind))) :
    SameFrom s (sees kinds >>= k) (sees kinds >>= k') := by
  intro p hp
  obtain ⟨q, hsees, hq, -⟩ := sees_eq kinds hp
  rw [bind_apply, bind_apply, hsees]
  exact hk q hq

theorem sameFrom_take_bind {k k' : Token → ParseM σ α}
    (hk : SameFrom s.advance (k s.head) (k' s.head)) :
    SameFrom s (take >>= k) (take >>= k') := by
  intro p hp
  obtain ⟨q, htake, hq⟩ := take_eq hp
  rw [bind_apply, bind_apply, htake]
  exact hk q hq

end ParseM

namespace Rules

open ParseM

section Recursion

variable {σ : Type} [TokenFeed σ]

def branchRule (inner : Rules (ParseM σ)) (again : ParseM σ Node) : ParseM σ Node := do
  let word ← expect .ifWord none
  let condition ← inner.expression 0
  let body ← inner.statement
  if ← sees [.elseWord] then
    let elseWord ← take
    let chained ← sees [.ifWord]
    let alternative ← (if chained then again else inner.statement)
    return .branch ⟨word.offset, true⟩ word condition body
      (.otherwise ⟨elseWord.offset, true⟩ elseWord alternative)
  else return .branch ⟨word.offset, true⟩ word condition body .missing

/-- The rule put into itself a number of times. The links of a chain beyond that are not read. -/
def unrolled (inner : Rules (ParseM σ)) : Nat → ParseM σ Node
  | 0 => return .missing
  | k + 1 => branchRule inner (unrolled inner k)

/-- The links collected so far, wired around what the loop goes on to read, are those put around
what the recursion goes on to read. -/
theorem links_wired (inner : Rules (ParseM σ)) (fuel : Nat) (done : List Link)
    (hdone : ∀ l ∈ done, l.elseWord.isSome) :
    (do
      let result ← links inner fuel done
      return (result.1.foldl Link.wire (.missing, result.2)).1) =
    (do
      let rest ← unrolled inner fuel
      return done.foldl Link.enclose rest) := by
  induction fuel generalizing done with
  | zero =>
    cases done with
    | nil => rfl
    | cons l done =>
      have hlast := Link.foldl_wire_cons (List.forall_mem_cons.mp hdone).2 l (l.clause .missing)
      exact congrArg (pure : Node → ParseM σ Node) hlast
  | succ fuel ih =>
    simp only [links, unrolled, branchRule, bind_assoc]
    congr 1
    funext word
    congr 1
    funext condition
    congr 1
    funext body
    congr 1
    funext hasElse
    cases hasElse with
    | false =>
      simp only [Bool.false_eq_true, if_false, pure_bind, Link.foldl_wire_cons hdone]
    | true =>
      simp only [if_true, bind_assoc]
      congr 1
      funext elseWord
      congr 1
      funext chained
      cases chained with
      | false =>
        simp only [Bool.false_eq_true, if_false, bind_assoc, pure_bind, Link.foldl_wire_cons hdone]
        rfl
      | true =>
        simp only [if_true, pure_bind]
        exact ih (⟨word, condition, body, some elseWord⟩ :: done)
          (List.forall_mem_cons.mpr ⟨rfl, hdone⟩)

theorem ifStatement_apply (inner : Rules (ParseM σ)) (p : Parser σ) :
    ifStatement inner p = unrolled inner p.budget p := by
  have hwired := congrFun (links_wired inner p.budget [] (List.forall_mem_nil _)) p
  rw [show (do
      let rest ← unrolled inner p.budget
      return [].foldl Link.enclose rest) = unrolled inner p.budget from bind_pure _] at hwired
  exact hwired

end Recursion

section Solution

variable {σ : Type} [TokenFeed σ] [FaithfulFeed σ] {inner : Rules (ParseM σ)} {n : Nat} {s : Stand}

theorem sameFrom_branchRule (hinner : inner.Follows n) {again again' : ParseM σ Node}
    (h : ∀ s', s'.ahead.length < s.ahead.length → SameFrom s' again again') :
    SameFrom s (branchRule inner again) (branchRule inner again') := by
  refine sameFrom_bind (does_expect .ifWord s) fun word s₀ hword => ?_
  refine sameFrom_bind (hinner.expression 0 s₀) fun condition s₁ hcondition => ?_
  refine sameFrom_bind (hinner.statement s₁) fun body s₂ hbody => ?_
  have hle : s₂.ahead.length ≤ s.ahead.length :=
    (hword.leads.trans (hcondition.leads.trans hbody.leads)).length_le
  apply sameFrom_sees_bind
  split
  · rename_i helse
    have hkind : s₂.head.kind ≠ .eof := by
      have hword : s₂.head.kind = .elseWord := by simpa using helse
      simp [hword]
    have hlength := Stand.length_ahead_advance hkind
    apply sameFrom_take_bind
    apply sameFrom_sees_bind
    apply SameFrom.bind
    split
    · exact h _ (by omega)
    · exact sameFrom_refl _
  · exact sameFrom_refl _

theorem sameFrom_unrolled (hinner : inner.Follows n) {k k' : Nat} (hk : s.ahead.length < k)
    (hk' : s.ahead.length < k') : SameFrom s (unrolled inner k) (unrolled inner k') := by
  induction k generalizing s k' with
  | zero => omega
  | succ k ih =>
    obtain ⟨k', rfl⟩ := Nat.exists_eq_succ_of_ne_zero (Nat.ne_zero_of_lt hk')
    exact sameFrom_branchRule hinner fun s' hlength => ih (by omega) (by omega)

theorem sameFrom_ifStatement (hinner : inner.Follows n) {k : Nat} (hk : s.ahead.length < k) :
    SameFrom s (ifStatement inner) (unrolled inner k) := by
  intro p hp
  rw [ifStatement_apply]
  exact sameFrom_unrolled hinner hp.length_lt hk p hp

theorem ifStatement_solves (hinner : inner.Follows n) (s : Stand) :
    SameFrom s (ifStatement inner) (branchRule inner (ifStatement inner)) := by
  have hrest : SameFrom s (branchRule inner (unrolled inner s.ahead.length))
      (branchRule inner (ifStatement inner)) :=
    sameFrom_branchRule hinner fun s' hlength p hp =>
      (sameFrom_ifStatement hinner hlength p hp).symm
  exact (sameFrom_ifStatement hinner (Nat.lt_succ_self _)).trans hrest

theorem eq_ifStatement_of_solves (hinner : inner.Follows n) {rule : ParseM σ Node}
    (h : ∀ s, SameFrom s rule (branchRule inner rule)) (s : Stand) :
    SameFrom s rule (ifStatement inner) := by
  induction hlength : s.ahead.length using Nat.strongRecOn generalizing s with
  | _ length ih =>
    have hrest : SameFrom s (branchRule inner rule) (branchRule inner (ifStatement inner)) :=
      sameFrom_branchRule hinner fun s' hshorter => ih _ (hlength ▸ hshorter) s' rfl
    intro p hp
    rw [h s p hp, hrest p hp, ifStatement_solves hinner s p hp]

/-- Reading an else-if chain in a loop is reading it by recursion to the right. In every state of a
parser, and whatever the rules for what nests inside, the loop does what the recursive rule does
that has been put into itself as often as the loop may turn. Where a parser stands in a text,
malformed or not, that bound is never met. The loop does what the recursive rule says, each further
`if` at the same level as the first; and whatever does so does what the loop does: it makes the same
tree or meets the same fault, and leaves the parser with the same tokens ahead and the same
diagnostics. -/
theorem ifStatement_eq_recursion :
    (∀ (inner : Rules (ParseM σ)) (p : Parser σ), ifStatement inner p = unrolled inner p.budget p) ∧
    ∀ n : Nat,
      (∀ (p : Parser σ) (s : Stand), p.Shows s →
        ifStatement (within n) p = branchRule (within n) (ifStatement (within n)) p) ∧
      ∀ rule : ParseM σ Node,
        (∀ (p : Parser σ) (s : Stand), p.Shows s → rule p = branchRule (within n) rule p) →
        ∀ (p : Parser σ) (s : Stand), p.Shows s → rule p = ifStatement (within n) p := by
  refine ⟨ifStatement_apply, fun n => ?_⟩
  have hinner : (within n : Rules (ParseM σ)).Follows n := follows_within n
  refine ⟨fun p s hp => ifStatement_solves hinner s p hp, fun rule h p s hp => ?_⟩
  exact eq_ifStatement_of_solves hinner (fun s p hp => h p s hp) s p hp

theorem ifStatement_eq_recursion_dangling :
    let source := "if 1 2 else if 3 4 else"
    let p := Parser.ofFeed (Lexer.ofSource "" source) "" source Parser.nestingLimit
    (∃ s, p.Shows s) ∧
      ifStatement (within 99) p = branchRule (within 99) (ifStatement (within 99)) p ∧
      ((ifStatement (within 3) p).1.toOption.map fun a => a.leaves.map (·.text)) =
        some ["if", "1", "2", "else", "if", "3", "4", "else"] := by
  intro source p
  obtain ⟨ts, e, hcuts, -⟩ := exists_cuts_of_source "" source
  have hp : p.Shows _ := shows_ofSource hcuts Parser.nestingLimit
  refine ⟨⟨_, hp⟩, (ifStatement_eq_recursion.2 99).1 p _ hp, by decide +kernel⟩

end Solution

end Rules

end Abacus
