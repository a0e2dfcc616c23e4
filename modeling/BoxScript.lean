import BoxScript.Main
import BoxScript.Store.Display
import BoxScript.Value.Operator
import BoxScript.Proofs.Eval.History
import BoxScript.Proofs.Eval.Isolation
import BoxScript.Proofs.Eval.Safety
import BoxScript.Proofs.Eval.WellFormed
import BoxScript.Proofs.Grammar.Continuation
import BoxScript.Proofs.Grammar.Printing
import BoxScript.Proofs.Token.Tokenization
import BoxScript.Proofs.Eval.Declarations
import BoxScript.Proofs.Eval.Sizes
import BoxScript.Proofs.Agreement
import BoxScript.Proofs.Store.Likeness
import BoxScript.Proofs.Eval.Likeness
import BoxScript.Proofs.Eval.Limits
import BoxScript.Proofs.Eval.Tracing
import BoxScript.Proofs.Store.Bodies
import BoxScript.Proofs.Tree.Rewriting
import BoxScript.Proofs.Eval.Rewriting
import BoxScript.Proofs.Tree.Typed
import BoxScript.Proofs.Eval.Synonyms
import BoxScript.Proofs.Eval.Returning
import BoxScript.Proofs.Token.Division
import BoxScript.Proofs.Token.Printing
import BoxScript.Proofs.Token.Places
import BoxScript.Proofs.Token.Joining
import BoxScript.Proofs.Grammar.Joining
import BoxScript.Proofs.Tree.Document
import BoxScript.Proofs.Eval.Reports
import BoxScript.Proofs.Store.Scoping
import BoxScript.Proofs.Eval.Repetition
import BoxScript.Proofs.Eval.Input
import BoxScript.Proofs.Store.Display
import BoxScript.Proofs.Grammar.Separators
import BoxScript.Proofs.Eval.Parameters
import BoxScript.Proofs.Store.Allocation
import BoxScript.Proofs.Eval.CallFree
import BoxScript.Proofs.Grammar.Renaming
import BoxScript.Proofs.Grammar.Progress
