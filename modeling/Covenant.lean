import Covenant.Bytecode.Assembly
import Covenant.Bytecode.Optimizer
import Covenant.Code.FlowGraph
import Covenant.Code.Provenance
import Covenant.Completion.Local
import Covenant.Completion.Settings
import Covenant.Engine.Analysis
import Covenant.Engine.ParseCache
import Covenant.Fuel
import Covenant.Json.OfBytecode
import Covenant.Json.OfEngine
import Covenant.Json.OfProperty
import Covenant.Json.OfReport
import Covenant.Json.Reader
import Covenant.Lowering.Contract
import Covenant.Proofs.Lowering.Preservation
import Covenant.Proofs.Property.Counterexamples
import Covenant.Property.Verifier
import Covenant.Run.Interpreter
import Covenant.Scan.Scanner
import Covenant.Syntax.Node
import Covenant.Syntax.Program
import Covenant.Proofs.Code.Typing
import Covenant.Proofs.Lowering.Typing
import Covenant.Proofs.Run.Operators
import Covenant.Proofs.Run.Typing
import Covenant.Proofs.Bytecode.Codec
import Covenant.Proofs.Bytecode.Optimizing
import Covenant.Proofs.Run.Soundness
import Covenant.Proofs.Bytecode.Canonical
import Covenant.Proofs.Bytecode.Savings
import Covenant.Proofs.Scan.AccessControl
import Covenant.Proofs.Scan.Reentrancy
import Covenant.Proofs.Scan.TxOrigin
import Covenant.Proofs.Syntax.Headings
import Covenant.Proofs.Chain.Simulation
import Covenant.Proofs.Lowering.Isolation
import Covenant.Proofs.Run.Limits
import Covenant.Proofs.Bytecode.Listing
import Covenant.Proofs.Bytecode.Assembling
import Covenant.Proofs.Property.Proven
import Covenant.Proofs.Lists
import Covenant.Proofs.Scan.Arrangement
import Covenant.Proofs.Scan.Isolation
import Covenant.Proofs.Property.Separation
import Covenant.Proofs.Suite.Separation
import Covenant.Proofs.Chain.Accounts
import Covenant.Proofs.Chain.History
import Covenant.Proofs.Symbolic.Decision
import Covenant.Proofs.Symbolic.Values
import Covenant.Proofs.Symbolic.Contents
import Covenant.Proofs.Bytecode.Reductions
import Covenant.Proofs.Bytecode.Lockstep
import Covenant.Proofs.Code.Lineage
import Covenant.Proofs.Scan.Effects
import Covenant.Proofs.Scan.DeadStores
import Covenant.Proofs.Scan.Layering
import Covenant.Proofs.Source.Lexing
import Covenant.Proofs.Syntax.Spans
import Covenant.Proofs.Syntax.Chains
import Covenant.Proofs.Source.Locations
import Covenant.Proofs.Suite.HappyPath
import Covenant.Proofs.Completion.Scopes
import Covenant.Proofs.Property.Verified
