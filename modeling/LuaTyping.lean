import LuaTyping.LogFormat
import LuaTyping.NamePool
import LuaTyping.Cancellation
import LuaTyping.Guard.Depth
import LuaTyping.Ty.Format
import LuaTyping.Interchange.Declarations
import LuaTyping.Interchange.Options
import LuaTyping.Workspace
import LuaTyping.Proofs.Guard
import LuaTyping.Proofs.Subtyping.Nesting
import LuaTyping.Proofs.Subtyping.Comparison
import LuaTyping.Proofs.Subtyping.Repetition
import LuaTyping.Proofs.Infer.Frames
import LuaTyping.Proofs.Infer.Balance
import LuaTyping.Proofs.Infer.Alone
import LuaTyping.Proofs.Infer.Ground
import LuaTyping.Proofs.Workspace.History
import LuaTyping.Proofs.Decl.Snapshot
import LuaTyping.Proofs.Infer.Alike
import LuaTyping.Proofs.Infer.Reads
import LuaTyping.Proofs.Infer.Replay
import LuaTyping.Proofs.Decl.Edit
import LuaTyping.Proofs.Workspace.Invalidation
import LuaTyping.Proofs.Guard.History
import LuaTyping.Proofs.Infer.Resolved
import LuaTyping.Proofs.Subtyping.Reuse
import LuaTyping.Proofs.Subtyping.Transitivity
import LuaTyping.Proofs.Ty.Fingerprint
import LuaTyping.Proofs.Infer.Bindings
import LuaTyping.Proofs.Ty.Hash
import LuaTyping.Proofs.Ty.Maximal
import LuaTyping.Proofs.Ty.Proper
import LuaTyping.Proofs.Ty.Rebuild
import LuaTyping.Proofs.Workspace.Isolation
import LuaTyping.Proofs.Decl.Overridden
import LuaTyping.Proofs.Infer.Interchangeable
import LuaTyping.Proofs.Infer.Documented
import LuaTyping.Proofs.Infer.Deeper
import LuaTyping.Proofs.Decl.Ancestors
import LuaTyping.Proofs.Infer.Inheritance
import LuaTyping.Proofs.Decl.Walks
import LuaTyping.Proofs.Subtyping.Congruence
import LuaTyping.Proofs.Infer.Ending
import LuaTyping.Proofs.Decl.Representation
import LuaTyping.Proofs.Decl.Revisions
import LuaTyping.Proofs.Decl.ClassTables
import LuaTyping.Proofs.Infer.Shallow
import LuaTyping.Proofs.Workspace.ClassReferences
import LuaTyping.Proofs.Text.Quoted
import LuaTyping.Proofs.Ty.Reading
import LuaTyping.Proofs.Infer.Unfolding
import LuaTyping.Proofs.Decl.Functions
import LuaTyping.Proofs.Decl.Globals
import LuaTyping.Proofs.Ty.Irredundant
import LuaTyping.Proofs.OptionFile.Layout
import LuaTyping.Proofs.Infer.CalleeNames
import LuaTyping.Proofs.Infer.Forwarding
import LuaTyping.Proofs.Decl.Origins
import LuaTyping.Proofs.Workspace.Copies
import LuaTyping.Proofs.Infer.Affected
import LuaTyping.Proofs.Decl.Contributions
import LuaTyping.Proofs.Ty.Chains
import LuaTyping.Proofs.Ty.Normal
import LuaTyping.Proofs.Decl.Distance
import LuaTyping.Proofs.Infer.Acyclic
import LuaTyping.Proofs.Subtyping.Leniency
import LuaTyping.Proofs.Subtyping.Successive
import LuaTyping.Proofs.Ty.Recovery
import LuaTyping.Proofs.Infer.MemberTables
import LuaTyping.Proofs.Decl.Shadowing
import LuaTyping.Proofs.Decl.FallThrough
import LuaTyping.Proofs.OptionFile.Chain
import LuaTyping.Proofs.Ty.Instances
import LuaTyping.Proofs.Tree.Spans
