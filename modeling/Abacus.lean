import Abacus.Grammar.Phrase
import Abacus.Main
import Abacus.Prompt.Highlight
import Abacus.Tree.Display
import Abacus.Tree.Equality
import Abacus.Tree.Traversal
import Abacus.Proofs.Feed.Supply
import Abacus.Proofs.Text.Classes
import Abacus.Proofs.Feed.Threaded
import Abacus.Proofs.Parser.Course
import Abacus.Proofs.Parser.Runs
import Abacus.Proofs.Parser.Source
import Abacus.Proofs.Parser.Spelling
import Abacus.Proofs.Tree.Traversal
import Abacus.Proofs.Tree.Whole
import Abacus.Proofs.Parser.Recovery
import Abacus.Proofs.Grammar.Cursor
import Abacus.Proofs.Grammar.Strata
import Abacus.Proofs.Tree.Outline
import Abacus.Proofs.Grammar.Accepting
import Abacus.Proofs.Grammar.Accepted
import Abacus.Proofs.Grammar.Agreement
import Abacus.Proofs.Eval.Compositional
import Abacus.Proofs.Eval.Safety
import Abacus.Proofs.Feed.Flow
import Abacus.Proofs.Feed.Dialogue
import Abacus.Proofs.Feed.Interleaving
import Abacus.Proofs.Tree.Relocation
import Abacus.Proofs.Parser.Abreast
import Abacus.Proofs.Parser.Readings
import Abacus.Proofs.Parser.Reprint
import Abacus.Proofs.Parser.Account
import Abacus.Proofs.Parser.Formed
import Abacus.Proofs.Eval.Upkeep
import Abacus.Proofs.Eval.Depth
import Abacus.Proofs.Eval.Range
import Abacus.Proofs.Parser.Alike
import Abacus.Proofs.Eval.Congruence
import Abacus.Proofs.Eval.Layout
import Abacus.Proofs.Parser.Termination
import Abacus.Proofs.Eval.Machine
import Abacus.Proofs.Eval.Frame
import Abacus.Proofs.Prompt.Session
import Abacus.Proofs.Scanner.Joined
import Abacus.Proofs.Parser.Context
import Abacus.Proofs.Parser.Anchored
import Abacus.Proofs.Eval.Moved
import Abacus.Proofs.Parser.Joined
import Abacus.Proofs.Eval.Piecewise
import Abacus.Proofs.Parser.Order
import Abacus.Proofs.Parser.Grouping
import Abacus.Proofs.Parser.Levels
import Abacus.Proofs.Parser.Excerpt
import Abacus.Proofs.Scanner.Position
import Abacus.Proofs.Scanner.States
import Abacus.Proofs.Scanner.Longest
import Abacus.Proofs.Eval.Places
import Abacus.Proofs.Eval.Holes
import Abacus.Proofs.Eval.Expansion
import Abacus.Proofs.Parser.Limit
import Abacus.Proofs.Eval.Printed
import Abacus.Proofs.Parser.Stranded
import Abacus.Proofs.Eval.Sameness
import Abacus.Proofs.Parser.Worded
import Abacus.Proofs.Parser.Faithful
import Abacus.Proofs.Scanner.CutShort
import Abacus.Proofs.Prompt.Brackets
import Abacus.Proofs.Prompt.Highlight
import Abacus.Proofs.Parser.Reported
import Abacus.Proofs.Parser.ElseIf
import Abacus.Proofs.Parser.Window
import Abacus.Proofs.Tree.Recursion
