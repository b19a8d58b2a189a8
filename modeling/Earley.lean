import Earley.Text.Location
import Earley.Text.Quoted
import Earley.Text.Rewindable
import Earley.Ebnf.Compile
import Earley.Ebnf.Tokenizer
import Earley.Tree.Drawing
import Earley.Tree.Equality
import Earley.Main
import Earley.Proofs.Ebnf.Compile
import Earley.Proofs.Grammar.Nullable
import Earley.Proofs.Tree.Faithful
import Earley.Proofs.Text.Sorted
import Earley.Proofs.Chart.Rejection
import Earley.Proofs.Ebnf.Spelling
import Earley.Proofs.Ebnf.TokenStream
import Earley.Proofs.Ebnf.Tokenizer
import Earley.Proofs.Ebnf.Places
import Earley.Proofs.Ebnf.Writing
import Earley.Proofs.Ebnf.Reader
import Earley.Proofs.Ebnf.Buildable
import Earley.Proofs.Ebnf.Outcome
import Earley.Proofs.Text.Rewindable
import Earley.Proofs.Ebnf.Redeclaration
import Earley.Proofs.Command.ExitCode
import Earley.Proofs.Tree.Preference
import Earley.Proofs.Tree.Ending
import Earley.Proofs.Chart.Queue
import Earley.Proofs.Ebnf.Relocation
import Earley.Proofs.Ebnf.SpelledOut
import Earley.Proofs.Ebnf.SyntaxError
import Earley.Proofs.Grammar.Order
import Earley.Proofs.Ebnf.Priority
import Earley.Proofs.Ebnf.Undeclared
import Earley.Proofs.Grammar.Mistake
import Earley.Proofs.Text.LookAhead
import Earley.Proofs.Tree.Drawing
import Earley.Proofs.Tree.Equality
import Earley.Proofs.Chart.Prefix
import Earley.Proofs.Command.Streams
import Earley.Proofs.Chart.Insertion
import Earley.Proofs.Tree.Fitting
import Earley.Proofs.Ebnf.Naming
