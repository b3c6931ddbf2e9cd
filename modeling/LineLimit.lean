import LineLimit.Main
import LineLimit.Text.Utf8.Lemmas
import LineLimit.Proofs.Cursor
import LineLimit.Proofs.Check.Exact
import LineLimit.Proofs.Pattern.Agreement
import LineLimit.Proofs.Pattern.Slashes
import LineLimit.Proofs.Pattern.ExactDepth
import LineLimit.Proofs.Pattern.Nesting
import LineLimit.Proofs.Pattern.Root
import LineLimit.Proofs.Pattern.Worklist
import LineLimit.Proofs.Search.Pruning
import LineLimit.Proofs.Search.Case
import LineLimit.Proofs.Check.Strict
import LineLimit.Proofs.Check.Order
import LineLimit.Proofs.Check.Root
import LineLimit.Proofs.Search.Whole
import LineLimit.Proofs.Search.Opening
import LineLimit.Proofs.Search.Errors
import LineLimit.Proofs.Search.Literal
import LineLimit.Proofs.Search.Separators
import LineLimit.Proofs.Session.Ending
import LineLimit.Proofs.Session.Transcript
import LineLimit.Proofs.CommandLine.Writing
import LineLimit.Proofs.Report.Decoding
import LineLimit.Proofs.Report.Filling
import LineLimit.Proofs.Report.PlainLines
