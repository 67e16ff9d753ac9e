import MicroCompiler.Machine.Run
import MicroCompiler.Main
import MicroCompiler.Native.Scripted
import MicroCompiler.Native.Standard
import MicroCompiler.Proofs.ArenaPlacement
import MicroCompiler.Proofs.Ast.Forest
import MicroCompiler.Proofs.Ast.Grove
import MicroCompiler.Proofs.Ast.Joining
import MicroCompiler.Proofs.Ast.Tree
import MicroCompiler.Proofs.Diagnostic.Excerpt
import MicroCompiler.Proofs.Errors.Careful
import MicroCompiler.Proofs.Errors.FirstImpossible
import MicroCompiler.Proofs.Errors.Lexical
import MicroCompiler.Proofs.Grammar.Acceptance.Text
import MicroCompiler.Proofs.Grammar.Backtracking
import MicroCompiler.Proofs.Grammar.Growth.Declaration
import MicroCompiler.Proofs.Grammar.Growth.Expression
import MicroCompiler.Proofs.Grammar.Growth.Statement
import MicroCompiler.Proofs.Grammar.Tree
import MicroCompiler.Proofs.Layout.Declaration
import MicroCompiler.Proofs.Layout.Independence
import MicroCompiler.Proofs.Machine.Arithmetic
import MicroCompiler.Proofs.Machine.Operands
import MicroCompiler.Proofs.Machine.Branching
import MicroCompiler.Proofs.Machine.Simulation
import MicroCompiler.Proofs.Machine.StackIntegrity
import MicroCompiler.Proofs.Native.CallCode
import MicroCompiler.Proofs.Safety.Balance
import MicroCompiler.Proofs.Safety.Declaration
import MicroCompiler.Proofs.Safety.Statement
import MicroCompiler.Proofs.Scanner.Characters
import MicroCompiler.Proofs.Sorting.Category
import MicroCompiler.Proofs.Sorting.Declaration
import MicroCompiler.Proofs.Sorting.Statement
import MicroCompiler.Proofs.Ssa.Definition
import MicroCompiler.Proofs.Ssa.History
import MicroCompiler.Proofs.TokenIndex
import MicroCompiler.Proofs.TokenTiling
import MicroCompiler.Proofs.TypeNames
import MicroCompiler.Ssa.Listing
import MicroCompiler.Ssa.Script
import MicroCompiler.Token.Cursor
import MicroCompiler.Token.Escape
import MicroCompiler.Proofs.Scanner.LongestMatch
import MicroCompiler.Proofs.Scanner.Progress
import MicroCompiler.Proofs.Scanner.Respacing
import MicroCompiler.Proofs.Scanner.Escapes
import MicroCompiler.Proofs.Command.Overriding
import MicroCompiler.Proofs.Errors.Merging
import MicroCompiler.Proofs.Outline.Unambiguous
