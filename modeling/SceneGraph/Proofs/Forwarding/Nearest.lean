import SceneGraph.Proofs.Scene.Reachable

/-!
What becomes of a missing path in a scene: nothing, if the nearest prim above it is no instance, and
else it is followed below the root of that instance's prototype.
-/

namespace SceneGraph.Scene

variable {scene : Scene}

structure Below (scene : Scene) (names rest : List Name) (target : Path) : Prop where
  named : names ≠ []
  anchored : target.anchor = .absolute
  elements : target.elements = names ++ rest
  deeper : rest ≠ [] ∨ target.isPropertyPath = true
  missing : ∀ longer, longer ≠ [] → longer <+: rest →
    scene.prims.get? (.absolute (names ++ longer)) = none

theorem Sound.property_missing (sound : scene.Sound) {target : Path}
    (property : target.isPropertyPath = true) : scene.prims.get? target = none := by
  refine Option.eq_none_iff_forall_ne_some.mpr fun value found => ?_
  obtain ⟨names, _, rfl⟩ := sound.absolute (OrderedMap.contains_iff.mpr ⟨value, found⟩)
  simp [Path.isPropertyPath] at property

theorem Below.eq_absolute {names rest : List Name} {target : Path}
    (below : scene.Below names rest target) (bare : ¬target.isPropertyPath = true) :
    target = .absolute (names ++ rest) :=
  Path.ext below.anchored below.elements (by simpa [Path.isPropertyPath] using bare)

theorem Below.absent {names rest : List Name} {target : Path}
    (below : scene.Below names rest target) (sound : scene.Sound) :
    scene.prims.get? target = none := by
  by_cases property : target.isPropertyPath = true
  · exact sound.property_missing property
  · rw [below.eq_absolute property]
    exact below.missing rest (below.deeper.resolve_right property) List.prefix_rfl

theorem firstAbove_absolute {names rest : List Name} {value : Option Path} (deeper : rest ≠ [])
    (found : scene.prims.get? (.absolute names) = some value)
    (missing : ∀ longer, longer ≠ [] → longer <+: rest →
      scene.prims.get? (.absolute (names ++ longer)) = none) :
    ((Path.absolute (names ++ rest)).ancestors.findSome? fun above =>
        (scene.primAt? above).map (above, ·)) =
      some (.absolute names, ⟨.absolute names, value⟩) := by
  induction rest using List.reverseRecOn with
  | nil => exact absurd rfl deeper
  | append_singleton rest name ih =>
      rw [← List.append_assoc, Path.ancestors_absolute_append, List.findSome?_cons, primAt?]
      by_cases here : rest = []
      · subst here
        simp [found]
      · rw [missing rest here (List.prefix_append _ _)]
        exact ih here fun longer named within =>
          missing longer named (within.trans (List.prefix_append _ _))

theorem firstAbove_below {names rest : List Name} {target : Path} {value : Option Path}
    (below : scene.Below names rest target)
    (found : scene.prims.get? (.absolute names) = some value) :
    (target.ancestors.findSome? fun above => (scene.primAt? above).map (above, ·)) =
      some (.absolute names, ⟨.absolute names, value⟩) := by
  by_cases property : target.isPropertyPath = true
  · rw [Path.ancestors_of_property below.anchored property, below.elements, List.findSome?_cons,
      primAt?]
    by_cases here : rest = []
    · subst here
      simp [found]
    · rw [below.missing rest here List.prefix_rfl]
      exact firstAbove_absolute here found below.missing
  · rw [below.eq_absolute property]
    exact firstAbove_absolute (below.deeper.resolve_right property) found below.missing

theorem nearestAncestor?_below {names rest : List Name} {target : Path} {value : Option Path}
    (below : scene.Below names rest target)
    (found : scene.prims.get? (.absolute names) = some value) :
    stage.nearestAncestor? target scene =
      (some (.absolute names, ⟨.absolute names, value⟩), scene) := by
  have first : (target.ancestors.findSome? fun above =>
      (stage.primAt? above scene).1.map (above, ·)) = _ := firstAbove_below below found
  rw [Stage.nearestAncestor?_eq stage_settled, first]
  simp [Option.filter, Path.isPrimPath_absolute.mpr below.named]

theorem last_on_the_way (scene : Scene) (names : List Name) :
    (∀ shorter, shorter <+: names → scene.prims.get? (.absolute shorter) = none) ∨
      ∃ shorter rest value, names = shorter ++ rest ∧
        scene.prims.get? (.absolute shorter) = some value ∧
        ∀ longer, longer ≠ [] → longer <+: rest →
          scene.prims.get? (.absolute (shorter ++ longer)) = none := by
  induction names using List.reverseRecOn with
  | nil =>
      cases found : scene.prims.get? (.absolute []) with
      | none =>
          refine Or.inl fun shorter within => ?_
          rwa [List.prefix_nil.mp within]
      | some value => exact Or.inr ⟨[], [], value, rfl, found, by simp +contextual⟩
  | append_singleton names name ih =>
      cases found : scene.prims.get? (.absolute (names ++ [name])) with
      | some value => exact Or.inr ⟨_, [], value, by simp, found, by simp +contextual⟩
      | none =>
          rcases ih with nothing | ⟨shorter, rest, value, rfl, present, missing⟩
          · refine Or.inl fun shorter within => ?_
            rcases List.prefix_concat_iff.mp within with rfl | shortened
            · exact found
            · exact nothing shorter shortened
          · refine Or.inr ⟨shorter, rest ++ [name], value, by simp, present, ?_⟩
            intro longer named within
            rcases List.prefix_concat_iff.mp within with rfl | shortened
            · rwa [← List.append_assoc]
            · exact missing longer named shortened

theorem Sound.prim_above (sound : scene.Sound) {target above : Path}
    (higher : above ∈ target.ancestors) {value : Option Path}
    (found : scene.prims.get? above = some value) :
    target.anchor = .absolute ∧
      ∃ names, names ≠ [] ∧ names <+: target.elements ∧ above = .absolute names := by
  obtain ⟨names, named, rfl⟩ := sound.absolute (OrderedMap.contains_iff.mpr ⟨value, found⟩)
  exact ⟨(Path.anchor_of_mem_ancestors higher).symm, names, named,
    Path.begins_of_mem_ancestors higher, rfl⟩

theorem Sound.nearest (sound : scene.Sound) {target : Path}
    (absent : scene.prims.get? target = none) :
    (∀ above ∈ target.ancestors, scene.prims.get? above = none) ∨
      ∃ names rest value, scene.Below names rest target ∧
        scene.prims.get? (.absolute names) = some value := by
  by_cases anchored : target.anchor = .absolute
  · rcases scene.last_on_the_way target.elements with
      nothing | ⟨names, rest, value, elements, found, missing⟩
    · refine Or.inl fun above higher => Option.eq_none_iff_forall_ne_some.mpr fun value found => ?_
      obtain ⟨_, names, _, within, rfl⟩ := sound.prim_above higher found
      rw [nothing names within] at found
      cases found
    · obtain ⟨_, named, same⟩ := sound.absolute (OrderedMap.contains_iff.mpr ⟨value, found⟩)
      rw [← Path.absolute_inj.mp same] at named
      refine Or.inr ⟨names, rest, value, ⟨named, anchored, elements, ?_, missing⟩, found⟩
      by_contra bare
      obtain ⟨ended, bare⟩ := not_or.mp bare
      have here : target = .absolute names :=
        Path.ext anchored (by simpa [not_not.mp ended] using elements)
          (by simpa [Path.isPropertyPath] using bare)
      rw [← here, absent] at found
      cases found
  · refine Or.inl fun above higher => Option.eq_none_iff_forall_ne_some.mpr fun value found => ?_
    exact anchored (sound.prim_above higher found).1

theorem forwardedTarget_plain {names rest : List Name} {target : Path}
    (below : scene.Below names rest target)
    (found : scene.prims.get? (.absolute names) = some none) :
    (stage.forwardedTarget target scene).1 = .ok none := by
  rw [Stage.forwardedTarget, nearestAncestor?_below below found]
  rfl

theorem forwardedTarget_instance {names rest root : List Name} {target : Path}
    (below : scene.Below names rest target)
    (found : scene.prims.get? (.absolute names) = some (some (.absolute root)))
    (rooted : root ≠ []) {held : Option Path}
    (present : scene.prims.get? (.absolute root) = some held) :
    ∃ next, next.anchor = .absolute ∧ next.elements = root ++ rest ∧
      next.property = target.property ∧
      (stage.forwardedTarget target scene).1 = .ok (some next) := by
  obtain ⟨suffix, cut, relative, suffixElements, suffixProperty⟩ :=
    Path.relativeTo?_absolute below.anchored below.elements
  obtain ⟨next, joined, anchored, elements, property⟩ := Path.append?_absolute rooted relative
  refine ⟨next, anchored, by rw [elements, suffixElements], by rw [property, suffixProperty], ?_⟩
  have prototype : stage.prototype? ⟨.absolute names, some (.absolute root)⟩ scene =
      (some ⟨.absolute root, held⟩, scene) := by
    simp [stage, prototype?, primAt?, present]
  rw [Stage.forwardedTarget, nearestAncestor?_below below found]
  simp only [prototype]
  simp [stage, Prim.isInstance, cut, joined]

theorem nearestAncestor?_nowhere {target : Path}
    (nothing : ∀ above ∈ target.ancestors, scene.prims.get? above = none) :
    stage.nearestAncestor? target scene = (none, scene) := by
  have first : (target.ancestors.findSome? fun above =>
      (stage.primAt? above scene).1.map (above, ·)) = none := by
    refine List.findSome?_eq_none_iff.mpr fun above higher => ?_
    simp [stage, primAt?, nothing above higher]
  rw [Stage.nearestAncestor?_eq stage_settled, first]
  rfl

theorem forwardedTarget_nowhere {target : Path}
    (nothing : ∀ above ∈ target.ancestors, scene.prims.get? above = none) :
    (stage.forwardedTarget target scene).1 = .ok none := by
  rw [Stage.forwardedTarget, nearestAncestor?_nowhere nothing]

end SceneGraph.Scene
