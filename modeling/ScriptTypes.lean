import ScriptTypes.Inference
import ScriptTypes.Settings
import ScriptTypes.Syntax.Rows
import ScriptTypes.Proofs.Lockstep.Basic
import ScriptTypes.Proofs.Lockstep.Resolution
import ScriptTypes.Proofs.Steps
import ScriptTypes.Proofs.Program
import ScriptTypes.Proofs.Refinement
import ScriptTypes.Proofs.Names
import ScriptTypes.Proofs.Agreement
import ScriptTypes.Proofs.Serialization
import ScriptTypes.Proofs.Settling
import ScriptTypes.Proofs.Stabilization
import ScriptTypes.Proofs.FirstOrder
import ScriptTypes.Proofs.Fixpoint
import ScriptTypes.Proofs.Rounding
import ScriptTypes.Proofs.Standards
import ScriptTypes.Proofs.Commented.Trees
import ScriptTypes.Proofs.Coupling
import ScriptTypes.Proofs.Pairing.Typing
import ScriptTypes.Proofs.Pairing.Resolution
import ScriptTypes.Proofs.Upheld
import ScriptTypes.Proofs.Certainty
import ScriptTypes.Proofs.Unions
import ScriptTypes.Proofs.Commented.Programs
import ScriptTypes.Proofs.Comments
import ScriptTypes.Proofs.Separation.Tables
import ScriptTypes.Proofs.Separation.Programs
import ScriptTypes.Proofs.Separation.Rounds
import ScriptTypes.Proofs.Requests
import ScriptTypes.Proofs.WriteOnce
import ScriptTypes.Proofs.Signing
import ScriptTypes.Proofs.Budgets
import ScriptTypes.Proofs.Evidence
import ScriptTypes.Proofs.Quiet
import ScriptTypes.Proofs.CallEdges
import ScriptTypes.Proofs.Legibility.Texts
import ScriptTypes.Proofs.Legibility.Types
import ScriptTypes.Proofs.Legibility.Maps
import ScriptTypes.Proofs.Closed
import ScriptTypes.Proofs.Equality
import ScriptTypes.Proofs.UnionLaws
import ScriptTypes.Proofs.Chains
import ScriptTypes.Proofs.Positivity
import ScriptTypes.Proofs.Collected
import ScriptTypes.Proofs.Nesting
import ScriptTypes.Proofs.Walks
import ScriptTypes.Proofs.Destructuring
import ScriptTypes.Proofs.Patterns
import ScriptTypes.Proofs.Offers
