import SceneGraph.VariantSet

/-! The registry of variant sets, which its first use fixes for good. -/

namespace SceneGraph

inductive Registry
  | unused
  | fixed (sets : VariantSets)

namespace Registry

structure Installation where
  installed : Bool
  registry : Registry
  reports : List Report

/-- Takes the sets of `plugins`, unless the registry has been used before. -/
def install (registry : Registry) (plugins : List Plugin) : Installation :=
  match registry with
  | .fixed sets => ⟨false, .fixed sets, []⟩
  | .unused =>
    let collection := collectVariantSets plugins
    ⟨true, .fixed collection.sets,
      collection.faults.map DeclarationFault.report ++
        [.noted .debug "installed registered variant sets" [("plugins", .count plugins.length)]]⟩

def sets : Registry → VariantSets × Registry
  | .unused => (∅, .fixed ∅)
  | .fixed sets => (sets, .fixed sets)

end Registry

end SceneGraph
