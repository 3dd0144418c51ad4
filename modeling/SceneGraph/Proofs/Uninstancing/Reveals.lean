import SceneGraph.Proofs.Scene.Overrides

/-!
Which paths uninstancing can reveal. An instance that hides a path is cleared, and then its children
are no longer those of the prim it shares but its own first, so that the path may lead elsewhere or
nowhere; each instance that is met next must still lead to the end of the path.
-/

namespace SceneGraph

namespace Layers

def clear (layers : Layers) (names : List Name) : Layers := layers.override (.absolute names) false

variable {layers : Layers}

theorem Shares.of_clear {names : List Name} {placement : Placement} {target : Path}
    (outside : placement.inPrototype = false)
    (shares : (layers.clear names).Shares placement target) : layers.Shares placement target := by
  obtain ⟨spec, found, reference, flag⟩ := shares
  refine ⟨spec, found, reference, ?_⟩
  rw [outside] at flag ⊢
  by_cases here : placement.place = .absolute names
  · rw [here, clear, override, OrderedMap.get?_insert_self] at flag
    simp at flag
  · rwa [clear, override, OrderedMap.get?_insert_of_ne _ _ here] at flag

theorem Placed.clear {prototypes : Path → Option Path} (later : Path → Option Path)
    (cleared : List Name) {placement : Placement} (placed : layers.Placed prototypes placement)
    (outside : placement.inPrototype = false) : (layers.clear cleared).Placed later placement := by
  induction placed with
  | root isRoot => exact Placed.root isRoot
  | child _ unshared found member below ih =>
      rw [← childOrigins_override (.absolute cleared) false] at found
      exact Placed.child (ih outside)
        (fun target shares => unshared target (shares.of_clear outside)) found member below
  | shared => cases outside

theorem sharedAt_clear (names : List Name) (source : Path) :
    (layers.clear names).sharedAt ⟨names, source, false⟩ = none := by
  rw [sharedAt, clear, override]
  cases layers.specs.get? source <;> simp [OrderedMap.get?_insert_self]

/-- The prim composed at `names` from `source` can be followed down to a prim at the end of `rest`,
when each instance on the way is cleared once the rest of the way is found through it. -/
inductive Reveals : Layers → Path → List Name → List Name → Prop
  | here {layers source names} : Reveals layers source names []
  | plain {layers source names name rest origin} :
      layers.sharedAt ⟨names, source, false⟩ = none →
      layers.childNamed source name = some origin →
      Reveals layers origin (names ++ [name]) rest → Reveals layers source names (name :: rest)
  | cleared {layers source names name rest target last composition} :
      layers.sharedAt ⟨names, source, false⟩ = some target →
      (name :: rest).foldlM layers.step ⟨names, source, false⟩ = some last →
      (layers.clear names).composition = .ok composition →
      Reveals (layers.clear names) source names (name :: rest) →
      Reveals layers source names (name :: rest)

def Revealable (layers : Layers) (path : Path) : Prop :=
  ∃ first rest, path = .absolute (first :: rest) ∧
    layers.specs.contains (.absolute [first]) = true ∧
    Reveals layers (.absolute [first]) [first] rest

theorem reveals_plain_iff {source : Path} {names rest : List Name} {name : Name}
    (unshared : layers.sharedAt ⟨names, source, false⟩ = none) :
    Reveals layers source names (name :: rest) ↔ ∃ origin,
      layers.childNamed source name = some origin ∧
        Reveals layers origin (names ++ [name]) rest := by
  constructor
  · intro reveals
    cases reveals with
    | plain _ found further => exact ⟨_, found, further⟩
    | cleared shared _ _ _ =>
        rw [unshared] at shared
        cases shared
  · rintro ⟨origin, found, further⟩
    exact Reveals.plain unshared found further

theorem reveals_cleared_iff {source target : Path} {names rest : List Name} {name : Name}
    (shared : layers.sharedAt ⟨names, source, false⟩ = some target) :
    Reveals layers source names (name :: rest) ↔
      (∃ last, (name :: rest).foldlM layers.step ⟨names, source, false⟩ = some last) ∧
        (∃ composition, (layers.clear names).composition = .ok composition) ∧
        Reveals (layers.clear names) source names (name :: rest) := by
  constructor
  · intro reveals
    cases reveals with
    | plain unshared _ _ =>
        rw [shared] at unshared
        cases unshared
    | cleared _ walked composed further => exact ⟨⟨_, walked⟩, ⟨_, composed⟩, further⟩
  · rintro ⟨⟨_, walked⟩, ⟨_, composed⟩, further⟩
    exact Reveals.cleared shared walked composed further

theorem Reveals.walked {source : Path} {names rest : List Name}
    (reveals : Reveals layers source names rest) :
    ∃ last, rest.foldlM layers.step ⟨names, source, false⟩ = some last := by
  induction reveals with
  | here => exact ⟨_, rfl⟩
  | plain unshared found _ ih =>
      obtain ⟨last, walked⟩ := ih
      refine ⟨last, ?_⟩
      rw [List.foldlM_cons, step, unshared, Option.getD_none, found]
      exact walked
  | cleared _ walked _ _ _ => exact ⟨_, walked⟩

end Layers

end SceneGraph
