import SceneGraph.Proofs.Forwarding.Nearest

/-!
How often forwarding hops. Every path settles after a number of hops that the scene alone
determines: a hop leads below a prototype's root, and from there each further hop leaves a shorter
path, so that a limit as high as the number of names of a path is never met.
-/

namespace SceneGraph

def Event.isHop : Event → Bool
  | .forwarded .. => true
  | _ => false

/-- Inside prototypes the first name is a root's, and a hop takes one more. -/
def Path.hopBound (path : Path) : Nat := path.elementCount - if path.isReserved then 1 else 0

theorem Path.hopBound_le (path : Path) : path.hopBound ≤ path.elementCount := Nat.sub_le _ _

namespace Scene

variable {scene : Scene}

theorem Sound.instance_deeper (sound : scene.Sound) {names : List Name} {root : Path}
    (found : scene.prims.get? (.absolute names) = some (some root))
    (reserved : (Path.absolute names).isReserved = true) : 1 < names.length := by
  obtain ⟨prototypes, rules⟩ := sound.rules
  rcases (rules.prims _ _).mp found with ⟨placement, placed, here, _⟩ | ⟨impossible, _⟩
  · rcases placed.root_or_deeper sound.specs.admissible rules.roots with authored | deeper
    · have unreserved := (sound.specs.admissible _ (Layers.mem_rootPrims.mp authored).1).2
      rw [here, reserved] at unreserved
      cases unreserved
    · rwa [here] at deeper
  · cases impossible

theorem Sound.instance_root (sound : scene.Sound) {place root : Path}
    (found : scene.prims.get? place = some (some root)) :
    ∃ name, root = .absolute [name] ∧ root.isReserved = true ∧
      scene.prims.get? root = some none := by
  obtain ⟨prototypes, rules⟩ := sound.rules
  obtain ⟨target, known⟩ := rules.instance_root found
  obtain ⟨number, rooted⟩ := rules.roots target root known
  obtain ⟨name, _, same⟩ := id rooted
  exact ⟨name, same, rooted.reserved, rules.prim_root known⟩

structure Shortens (target next : Path) : Prop where
  reserved : next.isReserved = true
  rooted : 0 < next.elementCount
  bounded : next.elementCount ≤ target.elementCount
  shorter : target.isReserved = true → next.elementCount < target.elementCount

theorem Shortens.hopBound_lt {target next : Path} (shortens : Shortens target next) :
    next.hopBound < target.hopBound := by
  have rooted := shortens.rooted
  have bounded := shortens.bounded
  rw [Path.hopBound, Path.hopBound, if_pos shortens.reserved]
  by_cases reserved : target.isReserved = true
  · have shorter := shortens.shorter reserved
    rw [if_pos reserved]
    omega
  · rw [if_neg reserved]
    omega

theorem Sound.forwardedTarget_cases (sound : scene.Sound) {target : Path}
    (absent : scene.prims.get? target = none) :
    (stage.forwardedTarget target scene).1 = .ok none ∨
      ∃ next, (stage.forwardedTarget target scene).1 = .ok (some next) ∧
        Shortens target next := by
  rcases sound.nearest absent with nothing | ⟨names, rest, value, below, found⟩
  · exact Or.inl (forwardedTarget_nowhere nothing)
  cases value with
  | none => exact Or.inl (forwardedTarget_plain below found)
  | some root =>
      obtain ⟨name, rfl, reserved, present⟩ := sound.instance_root found
      obtain ⟨next, anchored, elements, _, forwarded⟩ :=
        forwardedTarget_instance below found (by simp) present
      have named := List.length_pos_iff.mpr below.named
      have count : target.elementCount = names.length + rest.length := by
        rw [Path.elementCount, below.elements, List.length_append]
      have nextCount : next.elementCount = 1 + rest.length := by
        rw [Path.elementCount, elements, List.length_append, List.length_singleton]
      refine Or.inr ⟨next, forwarded, ?_, by omega, by omega, ?_⟩
      · rw [← reserved]
        exact (Path.isReserved_of_prefix anchored (by simp) ⟨rest, elements.symm⟩).symm
      · intro inside
        have deeper : 1 < names.length := by
          refine sound.instance_deeper found ?_
          rw [← inside]
          exact Path.isReserved_of_prefix below.anchored below.named ⟨rest, below.elements.symm⟩
        omega

theorem resolve_eq_settle (path : Path) {options : ForwardingOptions}
    (positive : 0 < options.maxDepth) : (stage.resolve path options scene).result =
      (stage.settle path options.maxDepth options.maxDepth path scene).result := by
  have valid : options.validate = .ok () := if_neg (by omega)
  rw [Stage.resolve, valid]
  rfl

/-- Followed through so many instances, a path comes to this answer. -/
inductive Settles (scene : Scene) : Nat → Path → Option Prim → Prop
  | found {target : Path} {value : Option Path} (present : scene.prims.get? target = some value) :
      Settles scene 0 target (some ⟨target, value⟩)
  | nowhere {target : Path} (absent : scene.prims.get? target = none)
      (ended : (stage.forwardedTarget target scene).1 = .ok none) : Settles scene 0 target none
  | hop {target next : Path} {hops : Nat} {answer : Option Prim}
      (absent : scene.prims.get? target = none)
      (forwarded : (stage.forwardedTarget target scene).1 = .ok (some next))
      (settles : Settles scene hops next answer) : Settles scene (hops + 1) target answer

section

variable {path target : Path} {hops : Nat} {answer : Option Prim} {options : ForwardingOptions}

theorem Settles.settle_eq (settles : scene.Settles hops target answer) (path : Path)
    (limit remaining : Nat) : (stage.settle path limit remaining target scene).result =
      if hops ≤ remaining then .ok answer else .error (.unsettledForwarding path limit) := by
  induction settles generalizing remaining with
  | @found target value present =>
      have here : (stage.primAt? target scene).1 = some ⟨target, value⟩ := by
        simp [stage, primAt?, present]
      rw [Stage.settle_eq stage_settled, here, if_pos (Nat.zero_le _)]
      rfl
  | @nowhere target absent ended =>
      have missing : (stage.primAt? target scene).1 = none := by simp [stage, primAt?, absent]
      rw [Stage.settle_eq stage_settled, missing, ended, if_pos (Nat.zero_le _)]
      rfl
  | @hop target _ _ _ absent forwarded _ ih =>
      have missing : (stage.primAt? target scene).1 = none := by simp [stage, primAt?, absent]
      rw [Stage.settle_eq stage_settled, missing, forwarded]
      cases remaining with
      | zero => rfl
      | succ remaining =>
          simp only [Nat.succ_le_succ_iff]
          exact ih remaining

theorem Settles.resolve_eq (settles : scene.Settles hops path answer)
    (positive : 0 < options.maxDepth) : (stage.resolve path options scene).result =
      if hops ≤ options.maxDepth then .ok answer
      else .error (.unsettledForwarding path options.maxDepth) :=
  (resolve_eq_settle path positive).trans (settles.settle_eq path _ _)

theorem Settles.absent (settles : scene.Settles hops target none) :
    scene.prims.get? target = none := by
  cases settles with
  | nowhere absent => exact absent
  | hop absent => exact absent

theorem Settles.unique {others : Nat} {other : Option Prim}
    (settles : scene.Settles hops target answer) (again : scene.Settles others target other) :
    hops = others ∧ answer = other := by
  induction settles generalizing others with
  | found present =>
      cases again with
      | found same => simp_all
      | nowhere absent => simp_all
      | hop absent => simp_all
  | nowhere absent ended => cases again <;> simp_all
  | hop absent forwarded _ ih =>
      cases again with
      | found present => simp_all
      | nowhere _ ended => simp_all
      | hop _ same settles =>
          cases forwarded.symm.trans same
          obtain ⟨rfl, rfl⟩ := ih settles
          exact ⟨rfl, rfl⟩

theorem Sound.settles (sound : scene.Sound) (target : Path) :
    ∃ hops answer, hops ≤ target.hopBound ∧ scene.Settles hops target answer := by
  induction bound : target.hopBound using Nat.strongRecOn generalizing target with
  | ind bound ih =>
      cases present : scene.prims.get? target with
      | some value => exact ⟨0, _, Nat.zero_le _, .found present⟩
      | none =>
          rcases sound.forwardedTarget_cases present with ended | ⟨next, forwarded, shortens⟩
          · exact ⟨0, none, Nat.zero_le _, .nowhere present ended⟩
          · have fewer := shortens.hopBound_lt
            obtain ⟨hops, answer, within, settles⟩ := ih next.hopBound (by omega) next rfl
            exact ⟨hops + 1, answer, by omega, .hop present forwarded settles⟩

theorem Sound.resolve_of_settles (sound : scene.Sound) (settles : scene.Settles hops path answer)
    (room : max 1 path.elementCount ≤ options.maxDepth) :
    (stage.resolve path options scene).result = .ok answer := by
  obtain ⟨others, _, bound, again⟩ := sound.settles path
  obtain ⟨rfl, _⟩ := settles.unique again
  have names := path.hopBound_le
  exact (settles.resolve_eq (by omega)).trans (if_pos (by omega))

theorem settles_plain (sound : scene.Sound) {names rest : List Name}
    (below : scene.Below names rest target)
    (found : scene.prims.get? (.absolute names) = some none) : scene.Settles 0 target none :=
  .nowhere (below.absent sound) (forwardedTarget_plain below found)

theorem settles_nowhere (absent : scene.prims.get? target = none)
    (nothing : ∀ above ∈ target.ancestors, scene.prims.get? above = none) :
    scene.Settles 0 target none :=
  .nowhere absent (forwardedTarget_nowhere nothing)

end

structure Descends (target : Path) (events : List Event) : Prop where
  hops : events.countP Event.isHop ≤ target.hopBound
  shorter : ∀ hop source next, .forwarded hop source next ∈ events →
    source.isReserved = true → next.elementCount < source.elementCount

theorem descends_nil (target : Path) : Descends target [] := by
  refine ⟨by simp, ?_⟩
  intro hop source next impossible
  cases impossible

theorem Descends.after {target next : Path} {events : List Event} (descends : Descends next events)
    (shortens : Shortens target next) (hop : Nat) :
    Descends target (.forwarded hop target next :: events) := by
  have fewer := shortens.hopBound_lt
  have hops := descends.hops
  constructor
  · rw [List.countP_cons, Event.isHop, if_pos rfl]
    omega
  · intro other source further member
    rcases List.mem_cons.mp member with same | later
    · cases same
      exact shortens.shorter
    · exact descends.shorter other source further later

theorem Descends.resolving {target : Path} {events : List Event} (descends : Descends target events)
    (path : Path) (limit : Nat) : Descends target (.resolving path limit :: events) where
  hops := by
    rw [List.countP_cons_of_neg (by simp [Event.isHop])]
    exact descends.hops
  shorter hop source next member :=
    descends.shorter hop source next (List.mem_of_ne_of_mem (by simp) member)

theorem Sound.settle_descends (sound : scene.Sound) (path : Path) (limit remaining : Nat)
    (target : Path) :
    Descends target (stage.settle path limit remaining target scene).events := by
  induction remaining using Nat.strongRecOn generalizing target with
  | ind remaining ih =>
      rw [Stage.settle_eq stage_settled]
      cases found : (stage.primAt? target scene).1 with
      | some prim => exact descends_nil target
      | none =>
          have absent : scene.prims.get? target = none := by
            simpa [stage, primAt?] using found
          rcases sound.forwardedTarget_cases absent with ended | ⟨next, forwarded, shortens⟩
          · rw [ended]
            exact descends_nil target
          · rw [forwarded]
            cases remaining with
            | zero => exact descends_nil target
            | succ remaining => exact (ih remaining (Nat.lt_succ_self _) next).after shortens _

theorem Sound.resolve_descends (sound : scene.Sound) (path : Path) (options : ForwardingOptions) :
    Descends path (stage.resolve path options scene).events := by
  rw [Stage.resolve, Outcome.after_events, List.singleton_append]
  refine Descends.resolving ?_ path options.maxDepth
  cases options.validate with
  | error fault => exact descends_nil path
  | ok _ => exact sound.settle_descends path _ _ path

end Scene

end SceneGraph
