import Mathlib.Data.List.Perm.Subperm
import Mathlib.Data.List.TakeWhile
import Mathlib.Logic.Relation
import SceneGraph.Proofs.Scene.Rules

/-!
Where references lead. Composing the children of a prim reads the prims its references lead to and
no others, and is refused exactly if one of these is not authored.
-/

namespace SceneGraph.Layers

section

variable (layers : Layers)

/-- It is authored about `prim` that it references `target`. -/
def References (prim target : Path) : Prop :=
  ∃ spec, layers.specs.get? prim = some spec ∧ spec.reference = some target

def Leads : Path → Path → Prop := Relation.ReflTransGen layers.References

end

variable {layers left right : Layers}

theorem References.unique {prim target other : Path} (first : layers.References prim target)
    (second : layers.References prim other) : target = other := by
  obtain ⟨spec, found, reference⟩ := first
  obtain ⟨spec', found', reference'⟩ := second
  cases found.symm.trans found'
  exact Option.some.inj (reference.symm.trans reference')

theorem Shares.references {placement : Placement} {target : Path}
    (shares : layers.Shares placement target) : layers.References placement.source target := by
  obtain ⟨spec, found, reference, _⟩ := shares
  exact ⟨spec, found, reference⟩

theorem Leads.after_reference {source target prim : Path}
    (references : layers.References source target) (leads : layers.Leads source prim) :
    prim = source ∨ layers.Leads target prim := by
  rcases Relation.ReflTransGen.cases_head leads with same | ⟨next, first, rest⟩
  · exact Or.inl same.symm
  · rw [references.unique first]
    exact Or.inr rest

theorem Leads.dangling {source missing : Path} (leads : layers.Leads source missing)
    (authored : layers.specs.contains source = true)
    (unauthored : layers.specs.contains missing = false) :
    ∃ prim, layers.Leads source prim ∧ layers.References prim missing := by
  rcases Relation.ReflTransGen.cases_tail leads with same | ⟨prim, before, last⟩
  · rw [same, authored] at unauthored
    cases unauthored
  · exact ⟨prim, before, last⟩

/-! Chains, prim by prim. -/

theorem referenceChainFrom_again {visited : List Path} {current : Path}
    (again : current ∈ visited) (room : Nat) :
    layers.referenceChainFrom room visited current = .ok [] := by
  cases room with
  | zero => rfl
  | succ room => rw [referenceChainFrom, if_pos again]

theorem referenceChainFrom_missing {visited : List Path} {current : Path}
    (fresh : current ∉ visited) (unauthored : layers.specs.get? current = none) (room : Nat) :
    layers.referenceChainFrom (room + 1) visited current =
      .error (.undefinedReference current) := by
  rw [referenceChainFrom, if_neg fresh, spec, unauthored]
  rfl

theorem referenceChainFrom_last {visited : List Path} {current : Path} {spec : PrimSpec}
    (fresh : current ∉ visited) (found : layers.specs.get? current = some spec)
    (ends : spec.reference = none) (room : Nat) :
    layers.referenceChainFrom (room + 1) visited current = .ok [current] := by
  rw [referenceChainFrom, if_neg fresh, spec_eq_ok.mpr found, ok_bind, ends]
  rfl

theorem referenceChainFrom_next {visited : List Path} {current next : Path}
    (fresh : current ∉ visited) (references : layers.References current next) (room : Nat) :
    layers.referenceChainFrom (room + 1) visited current =
      (layers.referenceChainFrom room (current :: visited) next).map (current :: ·) := by
  obtain ⟨spec, found, reference⟩ := references
  rw [referenceChainFrom, if_neg fresh, spec_eq_ok.mpr found, ok_bind, reference]
  rfl

theorem references_cases (layers : Layers) (prim : Path) :
    layers.specs.get? prim = none ∨
      (∃ spec, layers.specs.get? prim = some spec ∧ spec.reference = none) ∨
        ∃ target, layers.References prim target := by
  cases found : layers.specs.get? prim with
  | none => exact Or.inl rfl
  | some spec =>
      cases reference : spec.reference with
      | none => exact Or.inr (Or.inl ⟨spec, rfl, reference⟩)
      | some target => exact Or.inr (Or.inr ⟨target, spec, found, reference⟩)

/-! What is read. -/

theorem Leads.of_agree {source prim : Path} (agree : ∀ prim, left.Leads source prim →
      right.specs.get? prim = left.specs.get? prim) (leads : right.Leads source prim) :
    left.Leads source prim := by
  induction leads with
  | refl => exact .refl
  | tail _ last ih =>
      rw [References, agree _ ih] at last
      exact .tail ih last

theorem referenceChainFrom_congr {current : Path} (agree : ∀ prim, left.Leads current prim →
      (right.specs.get? prim).map PrimSpec.reference =
        (left.specs.get? prim).map PrimSpec.reference)
    (room : Nat) (visited : List Path) :
    right.referenceChainFrom room visited current =
      left.referenceChainFrom room visited current := by
  induction room generalizing visited current with
  | zero => rfl
  | succ room ih =>
      have here := agree current .refl
      rw [referenceChainFrom, referenceChainFrom, spec, spec]
      split
      next => rfl
      next =>
        cases found : left.specs.get? current with
        | none =>
            have missing : right.specs.get? current = none := by simpa [found] using here
            rw [missing]
            rfl
        | some spec =>
            obtain ⟨other, otherFound, same⟩ := Option.map_eq_some_iff.mp (found ▸ here)
            rw [otherFound, ok_bind, ok_bind, same]
            cases reference : spec.reference with
            | none => rfl
            | some next =>
                have first : left.References current next := ⟨spec, found, reference⟩
                have further := ih (fun prim leads => agree prim (.head first leads))
                  (current :: visited)
                simp only [further]

theorem reference_congr (keys : right.specs.keys = left.specs.keys)
    (references : ∀ prim target, right.References prim target ↔ left.References prim target)
    (prim : Path) : (right.specs.get? prim).map PrimSpec.reference =
      (left.specs.get? prim).map PrimSpec.reference := by
  have authored := OrderedMap.contains_congr keys prim
  rcases left.references_cases prim with unauthored | ⟨spec, found, ends⟩ | ⟨target, leads⟩
  · rw [OrderedMap.contains, OrderedMap.contains, unauthored] at authored
    have otherwise : right.specs.get? prim = none := by simpa using authored
    rw [unauthored, otherwise]
  · rw [OrderedMap.contains_iff.mpr ⟨spec, found⟩] at authored
    obtain ⟨other, otherFound⟩ := OrderedMap.contains_iff.mp authored
    rw [found, otherFound, Option.map_some, Option.map_some, ends]
    refine congrArg some (Option.eq_none_iff_forall_ne_some.mpr fun target reference => ?_)
    obtain ⟨_, known, impossible⟩ := (references prim target).mp ⟨other, otherFound, reference⟩
    cases found.symm.trans known
    rw [ends] at impossible
    cases impossible
  · obtain ⟨other, otherFound, otherReference⟩ := (references prim target).mpr leads
    obtain ⟨spec, found, reference⟩ := leads
    rw [found, otherFound, Option.map_some, Option.map_some, reference, otherReference]

theorem childOrigins_congr {source : Path} (keys : right.specs.keys = left.specs.keys)
    (agree : ∀ prim, left.Leads source prim →
      (right.specs.get? prim).map PrimSpec.reference =
        (left.specs.get? prim).map PrimSpec.reference) :
    right.childOrigins source = left.childOrigins source := by
  have sizes : right.specs.size = left.specs.size := by
    rw [← OrderedMap.length_keys, keys, OrderedMap.length_keys]
  have children : right.ownChildren = left.ownChildren := by
    funext parent
    rw [ownChildren, ownChildren, OrderedMap.keysFrom, OrderedMap.keysFrom, keys]
  rw [childOrigins, childOrigins, referenceChain, referenceChain, sizes,
    referenceChainFrom_congr agree, children]

/-! What is refused. -/

theorem spec_eq_error {path : Path} {fault : Fault} : layers.spec path = .error fault ↔
    layers.specs.contains path = false ∧ fault = .undefinedReference path := by
  rw [spec, OrderedMap.contains]
  cases layers.specs.get? path <;> simp [eq_comm]

theorem firstOfEachName_sublist (taken : List String) (paths : List Path) :
    (firstOfEachName taken paths).Sublist paths := by
  induction paths generalizing taken with
  | nil => exact .refl []
  | cons path rest ih =>
      rw [firstOfEachName]
      split
      next => exact (ih taken).cons path
      next => exact (ih _).cons_cons path

theorem length_le_size (layers : Layers) {prims : List Path} (distinct : prims.Nodup)
    (authored : ∀ prim ∈ prims, layers.specs.contains prim = true) :
    prims.length ≤ layers.specs.size := by
  rw [← OrderedMap.length_keys]
  exact (List.Nodup.subperm distinct fun prim member =>
    OrderedMap.mem_keys_iff.mpr (authored prim member)).length_le

/-- The prims visited on the way and those ahead are all authored, and no reference leads out of
them. The room is enough because the visited prims are distinct. -/
theorem closed_of_referenceChainFrom {room : Nat} {visited chain : List Path} {current : Path}
    (found : layers.referenceChainFrom room visited current = .ok chain)
    (enough : layers.specs.size < room + visited.length) (distinct : visited.Nodup)
    (trail : ∀ prim ∈ visited, layers.specs.contains prim = true ∧
      ∀ next, layers.References prim next → next = current ∨ next ∈ visited) :
    ∃ closed : List Path, current ∈ closed ∧ visited ⊆ closed ∧ ∀ prim ∈ closed,
      layers.specs.contains prim = true ∧ ∀ next, layers.References prim next → next ∈ closed := by
  induction room generalizing visited chain current with
  | zero =>
      have few := layers.length_le_size distinct fun prim member => (trail prim member).1
      omega
  | succ room ih =>
      have behind : ∀ prim ∈ visited, layers.specs.contains prim = true ∧
          ∀ next, layers.References prim next → next ∈ current :: visited := fun prim member =>
        ⟨(trail prim member).1, fun next references =>
          List.mem_cons.mpr ((trail prim member).2 next references)⟩
      rw [referenceChainFrom] at found
      split at found
      next again =>
        have same : current :: visited ⊆ visited := by simp [again]
        exact ⟨visited, again, List.Subset.refl _, fun prim member =>
          ⟨(behind prim member).1, fun next references =>
            same ((behind prim member).2 next references)⟩⟩
      next fresh =>
        obtain ⟨spec, authored, found⟩ := bind_eq_ok.mp found
        have known := spec_eq_ok.mp authored
        have present := OrderedMap.contains_iff.mpr ⟨spec, known⟩
        split at found
        next ends =>
          have last : ∀ next, ¬layers.References current next := by
            rintro next ⟨other, otherKnown, reference⟩
            cases known.symm.trans otherKnown
            rw [ends] at reference
            cases reference
          refine ⟨current :: visited, by simp, by simp, ?_⟩
          exact List.forall_mem_cons.mpr
            ⟨⟨present, fun next references => absurd references (last next)⟩, behind⟩
        next next reference =>
          obtain ⟨_, further, _⟩ := bind_eq_ok.mp found
          have only : ∀ other, layers.References current other → other = next :=
            fun other references => references.unique ⟨spec, known, reference⟩
          have more : layers.specs.size < room + (current :: visited).length := by
            rw [List.length_cons]
            omega
          obtain ⟨closed, ahead, passed, leaves⟩ :=
            ih further more (List.nodup_cons.mpr ⟨fresh, distinct⟩) <| List.forall_mem_cons.mpr
              ⟨⟨present, fun other references => Or.inl (only other references)⟩,
                fun prim member => ⟨(behind prim member).1, fun other references =>
                  Or.inr ((behind prim member).2 other references)⟩⟩
          exact ⟨closed, passed (by simp), fun prim member => passed (by simp [member]), leaves⟩

theorem authored_of_leads {source prim : Path} {origins : List Path}
    (found : layers.childOrigins source = .ok origins) (leads : layers.Leads source prim) :
    layers.specs.contains prim = true := by
  obtain ⟨chain, found, _⟩ := bind_eq_ok.mp found
  obtain ⟨closed, ahead, _, leaves⟩ :=
    closed_of_referenceChainFrom found (by simp) List.nodup_nil (by simp)
  have member : prim ∈ closed := by
    induction leads with
    | refl => exact ahead
    | tail _ last ih => exact (leaves _ ih).2 _ last
  exact (leaves prim member).1

theorem missing_of_referenceChainFrom {room : Nat} {visited : List Path} {current : Path}
    {fault : Fault} (failed : layers.referenceChainFrom room visited current = .error fault) :
    ∃ missing, layers.Leads current missing ∧ layers.specs.contains missing = false ∧
      fault = .undefinedReference missing := by
  induction room generalizing visited current with
  | zero => cases failed
  | succ room ih =>
      rw [referenceChainFrom] at failed
      split at failed
      next => cases failed
      next =>
        rcases bind_eq_error.mp failed with missing | ⟨spec, authored, failed⟩
        · obtain ⟨unauthored, same⟩ := spec_eq_error.mp missing
          exact ⟨current, .refl, unauthored, same⟩
        · split at failed
          next => cases failed
          next next reference =>
            rcases bind_eq_error.mp failed with further | ⟨_, _, impossible⟩
            · obtain ⟨missing, leads, unauthored, same⟩ := ih further
              exact ⟨missing, .head ⟨spec, spec_eq_ok.mp authored, reference⟩ leads, unauthored,
                same⟩
            · cases impossible

theorem dangling_of_childOrigins {source : Path} {fault : Fault}
    (authored : layers.specs.contains source = true)
    (failed : layers.childOrigins source = .error fault) :
    ∃ prim missing, layers.Leads source prim ∧ layers.References prim missing ∧
      layers.specs.contains missing = false ∧ fault = .undefinedReference missing := by
  rcases bind_eq_error.mp failed with chain | ⟨_, _, impossible⟩
  · obtain ⟨missing, leads, unauthored, same⟩ := missing_of_referenceChainFrom chain
    obtain ⟨prim, before, last⟩ := leads.dangling authored unauthored
    exact ⟨prim, missing, before, last, unauthored, same⟩
  · cases impossible

theorem of_mem_ownChildren {parent child : Path} (member : child ∈ layers.ownChildren parent) :
    layers.specs.contains child = true ∧ child.isWithin parent = true ∧
      child.elementCount = parent.elementCount + 1 := by
  obtain ⟨below, count⟩ := List.mem_filter.mp member
  have within := List.mem_takeWhile_imp below
  have key := List.mem_of_mem_drop ((List.takeWhile_sublist _).mem below)
  exact ⟨OrderedMap.mem_keys_iff.mp ((List.dropWhile_sublist _).mem key), within,
    of_decide_eq_true count⟩

theorem authored_of_mem_childOrigins {source origin : Path} {origins : List Path}
    (found : layers.childOrigins source = .ok origins) (member : origin ∈ origins) :
    layers.specs.contains origin = true := by
  obtain ⟨chain, _, rest⟩ := bind_eq_ok.mp found
  cases rest
  obtain ⟨parent, _, own⟩ := List.mem_flatMap.mp ((firstOfEachName_sublist [] _).subset member)
  exact (of_mem_ownChildren own).1

end SceneGraph.Layers
