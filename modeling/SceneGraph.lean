import SceneGraph.Naming
import SceneGraph.Proofs.Forwarding.Sharing
import SceneGraph.Proofs.Json.Records
import SceneGraph.Proofs.Path.Appending
import SceneGraph.Proofs.Path.Grammar
import SceneGraph.Proofs.RootLayer
import SceneGraph.Proofs.Scene.Cycles
import SceneGraph.Proofs.Scene.Defining
import SceneGraph.Proofs.Scene.Prototypes
import SceneGraph.Proofs.Scene.Providers
import SceneGraph.Proofs.Scene.RenamedRoots
import SceneGraph.Proofs.Scene.Text
import SceneGraph.Proofs.Uninstancing.Commutes
import SceneGraph.Proofs.Uninstancing.Converges
import SceneGraph.Proofs.Uninstancing.Idempotent
import SceneGraph.Proofs.Uninstancing.Restored
import SceneGraph.Proofs.VariantSet.Collection
import SceneGraph.Proofs.VariantSet.Registry
