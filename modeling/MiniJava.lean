import MiniJava.Main
import MiniJava.Proofs.Reading.Complete.Program
import MiniJava.Symbol.Document
import MiniJava.Tree.Nodes
import MiniJava.Proofs.Grammar.Proper
import MiniJava.Proofs.Resolve.Annotation
import MiniJava.Proofs.Resolve.Body
import MiniJava.Proofs.Resolve.ClassBody
import MiniJava.Proofs.Resolve.Course
import MiniJava.Proofs.Resolve.Declarations
import MiniJava.Proofs.Resolve.Declared
import MiniJava.Proofs.Resolve.Exact
import MiniJava.Proofs.Semantics.Correct
import MiniJava.Proofs.Emit.Operands
import MiniJava.Proofs.Emit.Order
import MiniJava.Proofs.Emit.Separate
import MiniJava.Proofs.Renaming.Code
import MiniJava.Proofs.Binding.Allotment
import MiniJava.Proofs.Binding.Basic
import MiniJava.Proofs.Binding.Classes
import MiniJava.Proofs.Binding.Extension
import MiniJava.Proofs.Binding.Members
import MiniJava.Proofs.Binding.Program
import MiniJava.Proofs.Binding.Resolution
import MiniJava.Proofs.Reading.Defects
import MiniJava.Proofs.Token.Spelling
import MiniJava.Proofs.Prefix.Blame
import MiniJava.Proofs.Recovery.Order
import MiniJava.Proofs.Recovery.Pieces
import MiniJava.Proofs.Progress.Returns
import MiniJava.Proofs.Emit.Exposed
import MiniJava.Proofs.Reading.Numbers
import MiniJava.Proofs.Listing.Chunk
import MiniJava.Proofs.Emit.Catalogue
import MiniJava.Proofs.Emit.Coverage
import MiniJava.Proofs.Recasting.Sources
import MiniJava.Proofs.Symbol.History
import MiniJava.Proofs.Diagnostic.Report
