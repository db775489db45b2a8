import CBoundary.Code.Outline
import CBoundary.Main
import CBoundary.Survey.Merge
import CBoundary.Proofs.Token.Marks
import CBoundary.Proofs.Code.MacroPass
import CBoundary.Proofs.Survey.Transparency
import CBoundary.Proofs.Code.Listed
import CBoundary.Proofs.Code.Typedefs
import CBoundary.Proofs.Program.ExitCode
import CBoundary.Proofs.Rename.Fields
import CBoundary.Proofs.Code.Inheritance
import CBoundary.Proofs.Code.Origins
import CBoundary.Proofs.Token.Backward
import CBoundary.Proofs.Survey.Counting
import CBoundary.Proofs.Access.Operands
import CBoundary.Proofs.Declaration.Parameter
import CBoundary.Proofs.Access.Expansions
import CBoundary.Proofs.Access.Completion
import CBoundary.Proofs.Macro.Paste
import CBoundary.Proofs.Survey.Filter
import CBoundary.Proofs.Cache.Apart
import CBoundary.Proofs.Declaration.BitFields
import CBoundary.Proofs.Declaration.Members
