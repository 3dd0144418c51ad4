import SceneGraph.Proofs.Uninstancing.Effect

/-!
Uninstancing paths in one order or another. Which instances a path needs cleared can be told from
the layers, whatever has been cleared before, so that the order leaves no trace.
-/

namespace SceneGraph

namespace Layers

/-- The prims above a path that are instances as soon as none above them is one. These come to hide
the path, one after the other, however the others are cleared. -/
def covering (layers : Layers) (path : Path) : List Path :=
  path.ancestors.filter fun above => (layers.originAt above).any fun source =>
    (layers.sharedAt ⟨above.elements, source, false⟩).isSome

structure ClearedAt (layers : Layers) (cleared : List Path) (later : Layers) : Prop where
  specs : later.specs = layers.specs
  overrides : ∀ place, later.overrides.get? place =
    if place ∈ cleared then some false else layers.overrides.get? place

variable {layers later last other : Layers} {path above place : Path}
  {cleared further otherCleared : List Path}

theorem mem_covering : above ∈ layers.covering path ↔ above ∈ path.ancestors ∧
    ∃ source, layers.originAt above = some source ∧
      (layers.sharedAt ⟨above.elements, source, false⟩).isSome = true := by
  rw [covering, List.mem_filter, Option.any_eq_true]

namespace ClearedAt

theorem originAt (clearedAt : layers.ClearedAt cleared later) : later.originAt = layers.originAt :=
  originAt_congr (by rw [clearedAt.specs]) fun _ _ => by
    rw [References, References, clearedAt.specs]

theorem sharedAt (clearedAt : layers.ClearedAt cleared later) (names : List Name) (source : Path) :
    later.sharedAt ⟨names, source, false⟩ =
      if .absolute names ∈ cleared then none else layers.sharedAt ⟨names, source, false⟩ := by
  rw [Layers.sharedAt, Layers.sharedAt, clearedAt.specs]
  dsimp only
  rw [clearedAt.overrides]
  by_cases member : .absolute names ∈ cleared
  · cases layers.specs.get? source <;> simp [member]
  · simp [member]

theorem mem_covering_iff (clearedAt : layers.ClearedAt cleared later) :
    above ∈ later.covering path ↔ above ∈ layers.covering path ∧ above ∉ cleared := by
  rw [mem_covering, mem_covering, clearedAt.originAt, and_assoc]
  refine and_congr_right fun _ => ?_
  rw [← exists_and_right]
  refine exists_congr fun source => ?_
  rw [and_assoc]
  refine and_congr_right fun found => ?_
  obtain ⟨first, rest, rfl, _⟩ := follow_eq_some found
  rw [clearedAt.sharedAt, Path.absolute_elements]
  split <;> simp_all

theorem trans (clearedAt : layers.ClearedAt cleared later)
    (laterClearedAt : later.ClearedAt further last) :
    layers.ClearedAt (cleared ++ further) last := by
  refine ⟨laterClearedAt.specs.trans clearedAt.specs, fun place => ?_⟩
  rw [laterClearedAt.overrides, clearedAt.overrides]
  grind

theorem unique (clearedAt : layers.ClearedAt cleared last)
    (otherClearedAt : layers.ClearedAt otherCleared other)
    (same : ∀ place, place ∈ cleared ↔ place ∈ otherCleared) : last = other := by
  obtain ⟨specs, overrides⟩ := last
  obtain ⟨otherSpecs, otherOverrides⟩ := other
  obtain rfl : specs = otherSpecs := clearedAt.specs.trans otherClearedAt.specs.symm
  congr 1
  refine OrderedMap.ext_get? fun place => ?_
  have here := clearedAt.overrides place
  have there := otherClearedAt.overrides place
  simp only [same] at here
  exact here.trans there.symm

end ClearedAt

end Layers

namespace Scene

variable {scene middle last other : Scene} {path above : Path} {prim : Prim}
  {cleared further : List Path}

theorem Clears.clearedAt (clears : Clears path scene cleared last) :
    scene.layers.ClearedAt cleared last.layers :=
  ⟨clears.specs, clears.overrides⟩

theorem Sound.mem_covering (sound : scene.Sound) (unreserved : above.isReserved = false)
    (higher : above ∈ path.ancestors) (found : scene.primAt? above = some prim) :
    above ∈ scene.layers.covering path ↔ prim.isInstance = true := by
  obtain ⟨source, origin, shared⟩ := sound.primAt?_origin unreserved found
  rw [Layers.mem_covering, and_iff_right higher, origin, ← shared]
  simp

theorem Clears.covering (clears : Clears path scene cleared last) (sound : scene.Sound) :
    ∀ above ∈ cleared, above ∈ scene.layers.covering path := by
  induction clears with
  | done => simp
  | @clear scene _ above prim rest hides found succeeded clears ih =>
      have here : Clears path scene [above] (scene.setInstanceable prim false).state :=
        .clear hides found succeeded .done
      rw [List.forall_mem_cons]
      constructor
      · have isInstance := hides.isInstance
        rw [isInstanceAt, found, Option.any_some] at isInstance
        refine (sound.mem_covering ?_ hides.higher found).mpr isInstance
        exact path_of_primAt? found ▸ unreserved_of_setInstanceable succeeded
      · intro place member
        have later := ih (sound.setInstanceable prim false) place member
        exact (here.clearedAt.mem_covering_iff.mp later).1

theorem Clears.distinct (clears : Clears path scene cleared last) (sound : scene.Sound) :
    cleared.Nodup := by
  induction clears with
  | done => exact List.nodup_nil
  | @clear scene _ above prim rest hides found succeeded clears ih =>
      have laterSound := sound.setInstanceable prim false
      have here : Clears path scene [above] (scene.setInstanceable prim false).state :=
        .clear hides found succeeded .done
      refine List.nodup_cons.mpr ⟨fun again => ?_, ih laterSound⟩
      have covers := clears.covering laterSound above again
      exact (here.clearedAt.mem_covering_iff.mp covers).2 (List.mem_singleton_self above)

theorem Sound.covering_eq_nil (sound : scene.Sound) (found : scene.primAt? path = some prim) :
    scene.layers.covering path = [] := by
  refine List.eq_nil_iff_forall_not_mem.mpr fun above covers => ?_
  obtain ⟨higher, source, origin, _⟩ := Layers.mem_covering.mp covers
  have unreserved := Layers.isReserved_of_originAt sound.specs.admissible origin
  obtain ⟨first, rest, rfl, _⟩ := Layers.follow_eq_some origin
  have plain := sound.plain_above (contains_of_primAt? found) higher
    (Path.isPrimPath_absolute.mpr (by simp))
  have here : scene.primAt? (.absolute (first :: rest)) =
      some ⟨.absolute (first :: rest), none⟩ := by
    rw [primAt?, plain, Option.map_some]
  cases (sound.mem_covering unreserved higher here).mp covers

theorem Clears.mem_iff (clears : Clears path scene cleared last) (sound : scene.Sound)
    (found : last.primAt? path = some prim) :
    above ∈ cleared ↔ above ∈ scene.layers.covering path := by
  refine ⟨clears.covering sound above, fun covers => ?_⟩
  by_contra kept
  have left := clears.clearedAt.mem_covering_iff.mpr ⟨covers, kept⟩
  rw [(clears.sound sound).covering_eq_nil found] at left
  cases left

def Uninstanced (path : Path) (scene last : Scene) : Prop :=
  ∃ options prim, (stage.uninstance path options scene).result = .ok (some prim) ∧
    (stage.uninstance path options scene).state = last

/-- All that sets the second scene apart from the first is that the prims at `cleared` have been
cleared, each by an edit of its own. -/
structure LeftBy (cleared : List Path) (scene last : Scene) : Prop where
  sound : last.Sound
  layers : scene.layers.ClearedAt cleared last.layers
  distinct : cleared.Nodup
  edits : last.instancingEdits = scene.instancingEdits + cleared.length

theorem LeftBy.trans (first : LeftBy cleared scene middle) (second : LeftBy further middle last)
    (disjoint : ∀ place ∈ cleared, place ∉ further) : LeftBy (cleared ++ further) scene last where
  sound := second.sound
  layers := first.layers.trans second.layers
  distinct := by
    refine List.nodup_append.mpr ⟨first.distinct, second.distinct, ?_⟩
    rintro place member _ later rfl
    exact disjoint place member later
  edits := by rw [second.edits, first.edits, List.length_append, Nat.add_assoc]

theorem LeftBy.unique (left : LeftBy cleared scene last) (right : LeftBy further scene other)
    (same : ∀ place, place ∈ cleared ↔ place ∈ further) : last = other := by
  have layers := left.layers.unique right.layers same
  have prims := right.sound.prims_eq left.sound layers
  have permuted := (List.perm_ext_iff_of_nodup left.distinct right.distinct).mpr same
  have edits : last.instancingEdits = other.instancingEdits := by
    rw [left.edits, right.edits, permuted.length_eq]
  cases last; cases other; cases layers; cases prims; cases edits; rfl

theorem Sound.uninstanced (sound : scene.Sound) (uninstanced : Uninstanced path scene last) :
    ∃ cleared, LeftBy cleared scene last ∧
      ∀ place, place ∈ cleared ↔ place ∈ scene.layers.covering path := by
  obtain ⟨options, prim, found, rfl⟩ := uninstanced
  obtain ⟨cleared, advances⟩ := sound.uninstance_advances path options
  have clears := advances.clears
  exact ⟨cleared, ⟨clears.sound sound, clears.clearedAt, clears.distinct sound, clears.edits sound⟩,
    fun place => clears.mem_iff sound (advances.found prim found)⟩

theorem Sound.uninstanced_both (sound : scene.Sound) {left right : Path}
    (first : Uninstanced left scene middle) (second : Uninstanced right middle last) :
    ∃ cleared, LeftBy cleared scene last ∧ ∀ place, place ∈ cleared ↔
      place ∈ scene.layers.covering left ∨ place ∈ scene.layers.covering right := by
  obtain ⟨cleared, firstLeft, mem_cleared⟩ := sound.uninstanced first
  obtain ⟨further, secondLeft, mem_further⟩ := firstLeft.sound.uninstanced second
  have remaining (place : Path) : place ∈ further ↔
      place ∈ scene.layers.covering right ∧ place ∉ cleared := by
    rw [mem_further, firstLeft.layers.mem_covering_iff]
  refine ⟨cleared ++ further, firstLeft.trans secondLeft ?_, fun place => ?_⟩
  · intro place member later
    exact ((remaining place).mp later).2 member
  · rw [List.mem_append, remaining, ← mem_cleared]
    tauto

/-- If two paths can be uninstanced in either order, from a scene that calls lead to, both orders
lead to the same scene: the one in which the prims that covered the first path or the second have
been cleared, each once. -/
theorem reachable_uninstance_commutes (reachable : Reachable scene) {left right : Path}
    {leftFirst leftRight rightFirst rightLeft : Scene}
    (first : Uninstanced left scene leftFirst) (second : Uninstanced right leftFirst leftRight)
    (otherFirst : Uninstanced right scene rightFirst)
    (otherSecond : Uninstanced left rightFirst rightLeft) :
    leftRight = rightLeft ∧ ∃ cleared, LeftBy cleared scene leftRight ∧ ∀ place, place ∈ cleared ↔
      place ∈ scene.layers.covering left ∨ place ∈ scene.layers.covering right := by
  have sound := reachable.sound
  obtain ⟨cleared, leads, mem_cleared⟩ := sound.uninstanced_both first second
  obtain ⟨otherCleared, otherLeads, mem_otherCleared⟩ :=
    sound.uninstanced_both otherFirst otherSecond
  refine ⟨leads.unique otherLeads fun place => ?_, cleared, leads, mem_cleared⟩
  rw [mem_cleared, mem_otherCleared, or_comm]

theorem reachable_uninstance_commutes_hall :
    let hallPath := Path.absolute [⟨"Hall", by decide⟩]
    let seat := Path.absolute [⟨"Hall", by decide⟩, ⟨"first", by decide⟩]
    let leg := Path.absolute [⟨"Hall", by decide⟩, ⟨"first", by decide⟩, ⟨"leg", by decide⟩]
    let scene := (load hall).state
    let legFirst := (stage.uninstance leg ⟨2⟩ scene).state
    let seatFirst := (stage.uninstance seat ⟨1⟩ scene).state
    scene.layers.covering leg = [seat, hallPath] ∧ scene.layers.covering seat = [hallPath] ∧
      legFirst.instancingEdits = 2 ∧ seatFirst.instancingEdits = 1 ∧
      (stage.uninstance seat ⟨1⟩ legFirst).state = (stage.uninstance leg ⟨2⟩ seatFirst).state := by
  intro hallPath seat leg scene legFirst seatFirst
  have reachable : Reachable scene := Reachable.load hall_loads
  have first : Uninstanced leg scene legFirst := ⟨⟨2⟩, ⟨leg, none⟩, by decide +kernel, rfl⟩
  have second : Uninstanced seat legFirst (stage.uninstance seat ⟨1⟩ legFirst).state :=
    ⟨⟨1⟩, ⟨seat, none⟩, by decide +kernel, rfl⟩
  have otherFirst : Uninstanced seat scene seatFirst :=
    ⟨⟨1⟩, ⟨seat, some (.absolute [⟨"__Prototype_1", by decide⟩])⟩, by decide +kernel, rfl⟩
  have otherSecond : Uninstanced leg seatFirst (stage.uninstance leg ⟨2⟩ seatFirst).state :=
    ⟨⟨2⟩, ⟨leg, none⟩, by decide +kernel, rfl⟩
  exact ⟨by decide +kernel, by decide +kernel, by decide +kernel, by decide +kernel,
    (reachable_uninstance_commutes reachable first second otherFirst otherSecond).1⟩

end Scene

end SceneGraph
