import ShaderLink.Program.Callbacks
import ShaderLink.Program.Draw
import ShaderLink.Proofs.Graph.Step
import ShaderLink.Proofs.Graph.TypeWalk
import ShaderLink.Proofs.Linker.Transparency
import ShaderLink.Proofs.Naming.Collision
import ShaderLink.Proofs.Program.Coherence
import ShaderLink.Proofs.Program.Callbacks
import ShaderLink.Proofs.Program.Recovery
import ShaderLink.Proofs.Traversal.Order
import ShaderLink.Proofs.Store.Referrers
import ShaderLink.Proofs.Closure.Order
import ShaderLink.Proofs.Graph.Values
import ShaderLink.Proofs.Linker.Sources
import ShaderLink.Proofs.Linker.Naming
import ShaderLink.Proofs.Linker.Stable
import ShaderLink.Proofs.Graph.Settling
import ShaderLink.Proofs.Graph.Derived
import ShaderLink.Proofs.Store.Chains
import ShaderLink.Proofs.Store.Generation
import ShaderLink.Proofs.Store.Replacement
import ShaderLink.Proofs.Store.Failure
import ShaderLink.Proofs.Store.ChainFailure
import ShaderLink.Proofs.Linker.Acyclic
import ShaderLink.Proofs.Linker.Reach
import ShaderLink.Proofs.Linker.Renumber
import ShaderLink.Proofs.Linker.Revision
import ShaderLink.Proofs.Definition.Composition
import ShaderLink.Proofs.Linker.Capture
import ShaderLink.Proofs.Linker.Incremental
import ShaderLink.Proofs.Store.Moves
import ShaderLink.Proofs.Store.Values
import ShaderLink.Proofs.Store.Staleness
import ShaderLink.Proofs.Store.Roles
import ShaderLink.Proofs.Store.Nesting
import ShaderLink.Proofs.Store.Linked
import ShaderLink.Proofs.Glsl.Reading
import ShaderLink.Proofs.Template
import ShaderLink.Proofs.Definition.ReadBack
import ShaderLink.Proofs.Glsl.Definitions
import ShaderLink.Proofs.Store.StaticNames
import ShaderLink.Proofs.Linker.Outputs
import ShaderLink.Proofs.Text.Indentation
import ShaderLink.Proofs.Linker.Targets
import ShaderLink.Proofs.Program.Hooks
import ShaderLink.Proofs.Store.Constants
import ShaderLink.Proofs.Naming.Search
import ShaderLink.Proofs.Graph.LinkWalks
import ShaderLink.Proofs.Graph.TouchRounds
import ShaderLink.Proofs.Program.Building
import ShaderLink.Proofs.Store.Calls
