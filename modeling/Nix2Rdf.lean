import Nix2Rdf.WriteTo
import Nix2Rdf.Extract.History
import Nix2Rdf.Extract.Inputs
import Nix2Rdf.K8s.Drift
import Nix2Rdf.Extract.Jobs
import Nix2Rdf.K8s.Fallback
import Nix2Rdf.K8s.Reach
import Nix2Rdf.DrvSyntax
import Nix2Rdf.Identity
import Nix2Rdf.Reason.Nulls
import Nix2Rdf.Reason.RunKey
import Nix2Rdf.Minting.Revisions
import Nix2Rdf.Reason.Hosts
import Nix2Rdf.Extract.OutputRuns
import Nix2Rdf.Extract.ClosureFragments
import Nix2Rdf.Extract.FollowsEnd
import Nix2Rdf.Extract.Interrupted
import Nix2Rdf.K8s.Budgets
import Nix2Rdf.Packs.Closures
import Nix2Rdf.Packs.Projection
import Nix2Rdf.Reason.Prefixes
import Nix2Rdf.Lib.FileTree
import Nix2Rdf.Reason.Closure
import Nix2Rdf.Reason.LoadOrder
import Nix2Rdf.K8s.Renaming
import Nix2Rdf.K8s.Selectors
import Nix2Rdf.K8s.Placement
import Nix2Rdf.Packs.Privileges
import Nix2Rdf.Extract.DrvGraph
import Nix2Rdf.Extract.Lossless
import Nix2Rdf.Extract.Archive
import Nix2Rdf.Packs.Copy
import Nix2Rdf.Extract.AllOrNothing
import Nix2Rdf.CanonicalText
import Nix2Rdf.Reason.Repeat
import Nix2Rdf.Extract.CanonicalHashes
import Nix2Rdf.K8s.ImageRefs
import Nix2Rdf.Endpoint
import Nix2Rdf.Ontology.Validate
import Nix2Rdf.Index.Runs
import Nix2Rdf.Publish.Mirror
import Nix2Rdf.K8s.References
import Nix2Rdf.K8s.Typed
import Nix2Rdf.Lib.Datalog.Region
import Nix2Rdf.Lib.Reachability
import Nix2Rdf.Packs.CoreMeaning
import Nix2Rdf.Packs.Kept
import Nix2Rdf.Packs.Rdfs
import Nix2Rdf.Extract.Replay
import Nix2Rdf.Packs.Dangling
import Nix2Rdf.Lib.Datalog.Fresh
import Nix2Rdf.Packs.Policies
