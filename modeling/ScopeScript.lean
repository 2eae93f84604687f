import ScopeScript.Config.OfJson
import ScopeScript.Evaluation.Evaluator
import ScopeScript.Grammar.Phrase
import ScopeScript.Host.Module
import ScopeScript.Syntax.OfTree.Program
import ScopeScript.Syntax.Render
import ScopeScript.Testing.Run
import ScopeScript.Proofs.Evaluation.Arithmetic
import ScopeScript.Proofs.Evaluation.Chain
import ScopeScript.Proofs.Evaluation.Effect
import ScopeScript.Proofs.Evaluation.Errors
import ScopeScript.Proofs.Evaluation.Frames
import ScopeScript.Proofs.Evaluation.Grouping
import ScopeScript.Proofs.Evaluation.Guarded
import ScopeScript.Proofs.Evaluation.Limit
import ScopeScript.Proofs.Evaluation.Stored
import ScopeScript.Proofs.Flat.Bare
import ScopeScript.Proofs.Flat.Interpreter
import ScopeScript.Proofs.Flat.Matching
import ScopeScript.Proofs.Flat.Refinement
import ScopeScript.Proofs.Grammar.Leaves
import ScopeScript.Proofs.Host.Bare
import ScopeScript.Proofs.Host.Flat
import ScopeScript.Proofs.Host.History
import ScopeScript.Proofs.Host.Values
import ScopeScript.Proofs.Literal.Decimal
import ScopeScript.Proofs.Literal.Grammar
import ScopeScript.Proofs.Phrase.Operands
import ScopeScript.Proofs.Phrase.Reading
import ScopeScript.Proofs.Program.Bare
import ScopeScript.Proofs.Program.Definitions
import ScopeScript.Proofs.Program.Faults
import ScopeScript.Proofs.Program.Outline
import ScopeScript.Proofs.Program.Parts
import ScopeScript.Proofs.Program.Reading
import ScopeScript.Proofs.Program.Trees
import ScopeScript.Proofs.Recursion.Stack
import ScopeScript.Proofs.Recursion.Termination
import ScopeScript.Proofs.Recursion.Values
import ScopeScript.Proofs.Rendering.Layout
import ScopeScript.Proofs.Rendering.Negation
import ScopeScript.Proofs.Rendering.Reread
import ScopeScript.Proofs.Rendering.Sketch
import ScopeScript.Proofs.Testing.Report
import ScopeScript.Proofs.Json.Grammar
import ScopeScript.Proofs.Json.Reading
import ScopeScript.Proofs.Host.Encoding
import ScopeScript.Proofs.Config.Members
