import LayoutLint.Document.Builder
import LayoutLint.Main
import LayoutLint.Proofs.Config.Resolved
import LayoutLint.Proofs.Config.Spellings
import LayoutLint.Proofs.Fix.Converged
import LayoutLint.Proofs.Fix.Effective
import LayoutLint.Proofs.Fix.Greedy
import LayoutLint.Proofs.Fix.KeptLines
import LayoutLint.Proofs.Fix.Overlaps
import LayoutLint.Proofs.Fix.Singly
import LayoutLint.Proofs.Layout.Attachment
import LayoutLint.Proofs.Layout.Building
import LayoutLint.Proofs.Layout.LineBreaks
import LayoutLint.Proofs.Layout.LineTable
import LayoutLint.Proofs.Layout.Removed
import LayoutLint.Proofs.Layout.Tiling
import LayoutLint.Proofs.Lexing.Alone
import LayoutLint.Proofs.Lexing.ByteLexer
import LayoutLint.Proofs.Lexing.Verbatim
import LayoutLint.Proofs.Rules.ClosingParens
import LayoutLint.Proofs.Rules.Independence
import LayoutLint.Proofs.Rules.LongLines
import LayoutLint.Proofs.Syntax.Claims
import LayoutLint.Proofs.Syntax.IfStatements
import LayoutLint.Proofs.Syntax.Nesting
import LayoutLint.Proofs.Syntax.StatementSearch
import LayoutLint.Proofs.Syntax.TokenIds
import LayoutLint.Proofs.Syntax.TypeArgs
