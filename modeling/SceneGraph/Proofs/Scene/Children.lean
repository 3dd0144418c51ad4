import SceneGraph.Proofs.Scene.Descendants
import SceneGraph.Proofs.Scene.Shape

/-!
Which prim the child of a name is composed from: the first one that is authored under that name, in
the order of the chain of references. So what is authored later can take the place of others, and it
hides all there is below them.
-/

namespace SceneGraph.Layers

section

variable (layers : Layers)

def ownChild (prim : Path) (name : Name) : Option Path :=
  let below := Path.absolute (prim.elements ++ [name])
  if layers.specs.contains below then some below else none

end

variable {layers before after : Layers} {source prim child : Path} {name : Name}

theorem ownChild_eq_some : layers.ownChild prim name = some child ↔
    child = .absolute (prim.elements ++ [name]) ∧ layers.specs.contains child = true := by
  rw [ownChild]
  constructor
  · intro found
    obtain ⟨authored, same⟩ := Option.ite_none_right_eq_some.mp found
    cases same
    exact ⟨rfl, authored⟩
  · rintro ⟨rfl, authored⟩
    exact if_pos authored

theorem find_firstOfEachName (taken : List String) (paths : List Path) (text : String) :
    (firstOfEachName taken paths).find? (fun path => path.name = text) =
      if text ∈ taken then none else paths.find? fun path => path.name = text := by
  induction paths generalizing taken with
  | nil => simp [firstOfEachName]
  | cons path rest ih =>
      rw [firstOfEachName]
      by_cases here : path.name = text
      · by_cases known : text ∈ taken
        · rw [if_pos (here ▸ known), ih, if_pos known, if_pos known]
        · rw [if_neg (here ▸ known), if_neg known, List.find?_cons_of_pos (by simpa using here),
            List.find?_cons_of_pos (by simpa using here)]
      · rw [List.find?_cons_of_neg (by simpa using here)]
        split
        · exact ih taken
        · rw [List.find?_cons_of_neg (by simpa using here), ih]
          simp [Ne.symm here]

theorem mem_firstOfEachName {paths : List Path} {path : Path} :
    path ∈ firstOfEachName [] paths ↔
      paths.find? (fun other => other.name = path.name) = some path := by
  have first := find_firstOfEachName [] paths path.name
  rw [if_neg List.not_mem_nil] at first
  rw [← first, find_name_eq_some_iff (firstOfEachName_distinct [] paths).1]
  simp

theorem find_ownChildren (admissible : layers.specs.Admissible)
    (authored : layers.specs.contains prim = true) (name : Name) :
    (layers.ownChildren prim).find? (fun child => child.name = name.text) =
      layers.ownChild prim name := by
  have prims := fun path held => (admissible path held).1
  have distinct : (layers.ownChildren prim).Pairwise fun left right => left.name ≠ right.name :=
    (ownChildren_names_ascending prims authored).imp fun order same => by
      rw [same, Std.ReflOrd.compare_self] at order
      cases order
  ext child
  rw [find_name_eq_some_iff distinct, mem_ownChildren_iff_parent prims authored, ownChild_eq_some]
  constructor
  · rintro ⟨⟨childAuthored, rfl⟩, spelled⟩
    obtain ⟨names, last, rfl⟩ := Path.exists_last (prims child childAuthored)
    rw [Path.name_absolute_append] at spelled
    obtain rfl : last = name := Name.text_injective spelled
    rw [Path.parent_absolute_append]
    exact ⟨rfl, childAuthored⟩
  · rintro ⟨rfl, childAuthored⟩
    obtain ⟨names, _, rfl⟩ := Path.isAbsolutePrimPath_iff.mp (prims prim authored)
    exact ⟨⟨childAuthored, Path.parent_absolute_append names name⟩,
      Path.name_absolute_append names name⟩

theorem childNamed_of_chain (admissible : layers.specs.Admissible) {chain : List Path}
    (linked : layers.referenceChain source = .ok chain) (name : Name) :
    layers.childNamed source name = chain.findSome? fun prim => layers.ownChild prim name := by
  have authored := authored_of_mem_referenceChainFrom linked
  rw [childNamed, childOrigins, linked, ok_bind]
  change (firstOfEachName [] _).find? _ = _
  rw [find_firstOfEachName, if_neg List.not_mem_nil, List.find?_flatMap]
  clear linked
  induction chain with
  | nil => rfl
  | cons prim rest ih =>
      obtain ⟨here, others⟩ := List.forall_mem_cons.mp authored
      rw [List.findSome?_cons, List.findSome?_cons, find_ownChildren admissible here, ih others]

theorem chain_of_childNamed (found : layers.childNamed source name = some child) :
    ∃ chain, layers.referenceChain source = .ok chain := by
  obtain ⟨_, origins, _⟩ := childNamed_eq_some.mp found
  obtain ⟨chain, linked, _⟩ := bind_eq_ok.mp origins
  exact ⟨chain, linked⟩

theorem source_mem_referenceChain {chain : List Path}
    (linked : layers.referenceChain source = .ok chain) : ∃ rest, chain = source :: rest := by
  rw [referenceChain] at linked
  have fresh : source ∉ ([] : List Path) := List.not_mem_nil
  rcases layers.references_cases source with unauthored | ⟨spec, found, ends⟩ | ⟨next, first⟩
  · rw [referenceChainFrom_missing fresh unauthored] at linked
    cases linked
  · rw [referenceChainFrom_last fresh found ends] at linked
    cases linked
    exact ⟨[], rfl⟩
  · rw [referenceChainFrom_next fresh first] at linked
    obtain ⟨rest, _, rfl⟩ := map_eq_ok.mp linked
    exact ⟨rest, rfl⟩

theorem childNamed_own (admissible : layers.specs.Admissible) {chain : List Path}
    (linked : layers.referenceChain source = .ok chain)
    (own : layers.ownChild source name = some child) :
    layers.childNamed source name = some child := by
  obtain ⟨rest, rfl⟩ := source_mem_referenceChain linked
  rw [childNamed_of_chain admissible linked, List.findSome?_cons, own]

/-! More prims. -/

/-- The second layers have all prims of the first, and more of which nothing else is said. -/
structure Grown (before after : Layers) : Prop where
  kept : ∀ prim spec, before.specs.get? prim = some spec → after.specs.get? prim = some spec
  blank : ∀ prim, before.specs.contains prim = false → after.specs.contains prim = true →
    after.specs.get? prim = some {}
  overrides : after.overrides = before.overrides

namespace Grown

theorem contains (grown : Grown before after) (authored : before.specs.contains prim = true) :
    after.specs.contains prim = true := by
  obtain ⟨spec, found⟩ := OrderedMap.contains_iff.mp authored
  exact OrderedMap.contains_iff.mpr ⟨spec, grown.kept prim spec found⟩

theorem size_le (grown : Grown before after) : before.specs.size ≤ after.specs.size := by
  rw [← OrderedMap.length_keys]
  exact after.length_le_size before.specs.keys_nodup fun prim member =>
    grown.contains (OrderedMap.mem_keys_iff.mp member)

theorem referenceChainFrom (grown : Grown before after) {room : Nat} {visited chain : List Path}
    {current : Path} (linked : before.referenceChainFrom room visited current = .ok chain)
    (enough : before.specs.size < room + visited.length) (distinct : visited.Nodup)
    (authored : ∀ prim ∈ visited, before.specs.contains prim = true) (more : Nat) :
    after.referenceChainFrom (room + more) visited current = .ok chain := by
  induction room generalizing visited chain current with
  | zero =>
      have few := before.length_le_size distinct authored
      omega
  | succ room ih =>
      rw [Nat.add_right_comm]
      by_cases again : current ∈ visited
      · rw [referenceChainFrom_again again] at linked
        cases linked
        exact referenceChainFrom_again again _
      rcases before.references_cases current with missing | ⟨spec, found, ends⟩ | ⟨next, first⟩
      · rw [referenceChainFrom_missing again missing] at linked
        cases linked
      · rw [referenceChainFrom_last again found ends] at linked
        cases linked
        exact referenceChainFrom_last again (grown.kept _ spec found) ends _
      · rw [referenceChainFrom_next again first] at linked
        obtain ⟨rest, further, rfl⟩ := map_eq_ok.mp linked
        obtain ⟨spec, found, reference⟩ := first
        rw [referenceChainFrom_next again ⟨spec, grown.kept _ spec found, reference⟩,
          ih further (by rw [List.length_cons]; omega) (List.nodup_cons.mpr ⟨again, distinct⟩)
            (List.forall_mem_cons.mpr ⟨OrderedMap.contains_iff.mpr ⟨spec, found⟩, authored⟩)]
        rfl

theorem referenceChain (grown : Grown before after) {chain : List Path}
    (linked : before.referenceChain source = .ok chain) :
    after.referenceChain source = .ok chain := by
  obtain ⟨more, size⟩ := Nat.exists_eq_add_of_le grown.size_le
  have further := grown.referenceChainFrom linked (by simp) List.nodup_nil (by simp) more
  rwa [Nat.add_right_comm, ← size] at further

theorem ownChild (grown : Grown before after) (found : before.ownChild prim name = some child) :
    after.ownChild prim name = some child := by
  obtain ⟨same, authored⟩ := ownChild_eq_some.mp found
  exact ownChild_eq_some.mpr ⟨same, grown.contains authored⟩

theorem childNamed (grown : Grown before after) (admissible : before.specs.Admissible)
    (afterAdmissible : after.specs.Admissible)
    (found : before.childNamed source name = some child) :
    after.childNamed source name = some child ∨
      ∃ other, after.childNamed source name = some other ∧ before.specs.contains other = false := by
  obtain ⟨chain, linked⟩ := chain_of_childNamed found
  rw [childNamed_of_chain admissible linked] at found
  rw [childNamed_of_chain afterAdmissible (grown.referenceChain linked)]
  clear linked
  induction chain with
  | nil => cases found
  | cons prim rest ih =>
      rw [List.findSome?_cons] at found ⊢
      cases own : before.ownChild prim name with
      | some same =>
          rw [own] at found
          cases found
          rw [grown.ownChild own]
          exact Or.inl rfl
      | none =>
          rw [own] at found
          cases later : after.ownChild prim name with
          | none => exact ih found
          | some other =>
              refine Or.inr ⟨other, rfl, Bool.eq_false_iff.mpr fun authored => ?_⟩
              have earlier := ownChild_eq_some.mpr ⟨(ownChild_eq_some.mp later).1, authored⟩
              rw [own] at earlier
              cases earlier

end Grown

end SceneGraph.Layers
