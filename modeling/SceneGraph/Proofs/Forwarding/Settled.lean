import SceneGraph.Uninstancing

/-!
Stages that no look-up changes: resolving leaves the state alone, and whatever clearing single
prims keeps, uninstancing keeps.
-/

namespace SceneGraph

namespace Stage

variable {σ Prim : Type} {stage : Stage σ Prim}

theorem Settled.primAt? (settled : stage.Settled) (path : Path) (state : σ) :
    stage.primAt? path state = ((stage.primAt? path state).1, state) :=
  Prod.ext rfl (settled.1 path state)

theorem Settled.prototype? (settled : stage.Settled) (prim : Prim) (state : σ) :
    stage.prototype? prim state = ((stage.prototype? prim state).1, state) :=
  Prod.ext rfl (settled.2 prim state)

theorem firstExisting_eq (settled : stage.Settled) (paths : List Path) (state : σ) :
    stage.firstExisting paths state =
      (paths.findSome? fun path => (stage.primAt? path state).1.map (path, ·), state) := by
  induction paths with
  | nil => rfl
  | cons path rest ih =>
      rw [firstExisting, settled.primAt?, List.findSome?_cons]
      cases (stage.primAt? path state).1 with
      | none => exact ih
      | some prim => rfl

theorem nearestAncestor?_eq (settled : stage.Settled) (path : Path) (state : σ) :
    stage.nearestAncestor? path state =
      ((path.ancestors.findSome? fun above => (stage.primAt? above state).1.map (above, ·)).filter
        fun found => found.1.isPrimPath, state) := by
  rw [nearestAncestor?, firstExisting_eq settled]
  rcases path.ancestors.findSome? _ with _ | ⟨found, prim⟩
  · rfl
  · cases prim? : found.isPrimPath <;> simp [Option.filter, prim?]

theorem nearestAncestor?_state (settled : stage.Settled) (path : Path) (state : σ) :
    (stage.nearestAncestor? path state).2 = state := by
  rw [nearestAncestor?_eq settled]

theorem forwardedTarget_state (settled : stage.Settled) (target : Path) (state : σ) :
    (stage.forwardedTarget target state).2 = state := by
  have nearest := nearestAncestor?_state settled target state
  rw [forwardedTarget]
  split
  next after same => rwa [same] at nearest
  next found prim after same =>
    rw [same] at nearest
    obtain rfl : after = state := nearest
    split
    next => rfl
    next =>
      dsimp only
      split
      next => rfl
      next =>
        rw [settled.prototype?]
        split
        next same => exact (Prod.mk.inj same).2.symm
        next same =>
          obtain ⟨_, rfl⟩ := Prod.mk.inj same
          split <;> rfl

theorem settle_eq (settled : stage.Settled) (path : Path) (limit remaining : Nat) (target : Path)
    (state : σ) : stage.settle path limit remaining target state =
      match (stage.primAt? target state).1, (stage.forwardedTarget target state).1, remaining with
      | some prim, _, _ => .ok (some prim) state
      | none, .error fault, _ => .error fault state
      | none, .ok none, _ => .ok none state
      | none, .ok (some _), 0 => .error (.unsettledForwarding path limit) state
      | none, .ok (some next), remaining + 1 =>
        (stage.settle path limit remaining next state).after
          [.forwarded (limit - remaining) target next] := by
  have kept := forwardedTarget_state settled target state
  rw [settle, settled.primAt?]
  cases (stage.primAt? target state).1 with
  | some prim => rfl
  | none =>
      dsimp only
      generalize stage.forwardedTarget target state = forwarded at kept ⊢
      obtain ⟨answer, after⟩ := forwarded
      obtain rfl : after = state := kept
      rcases answer with fault | _ | next
      · rfl
      · rfl
      · cases remaining <;> rfl

theorem settle_state (settled : stage.Settled) (path : Path) (limit remaining : Nat) (target : Path)
    (state : σ) : (stage.settle path limit remaining target state).state = state := by
  induction remaining using Nat.strongRecOn generalizing target with
  | ind remaining ih =>
      rw [settle_eq settled]
      split
      · rfl
      · rfl
      · rfl
      · rfl
      · exact ih _ (by omega) _

theorem resolve_state (settled : stage.Settled) (path : Path) (options : ForwardingOptions)
    (state : σ) : (stage.resolve path options state).state = state := by
  rw [resolve]
  cases options.validate with
  | error fault => rfl
  | ok _ => exact settle_state settled path _ _ path state

end Stage

namespace EditableStage

variable {σ Prim : Type} {stage : EditableStage σ Prim}

theorem reveal_eq (settled : stage.Settled) (path : Path) (options : ForwardingOptions)
    (remaining : Nat) (state : σ) : stage.reveal path options remaining state =
      match (stage.primAt? path state).1 with
      | some prim => .ok (some prim) state
      | none =>
        Outcome.after (stage.resolve path options state).events <|
          match (stage.resolve path options state).result,
            (stage.nearestAncestor? path state).1 with
          | .error fault, _ => .error fault state
          | .ok none, _ => .ok none state
          | .ok (some _), none => .ok none state
          | .ok (some _), some (found, ancestor) =>
            if !stage.isInstance ancestor then .error (.hiddenByPrim path found) state
            else
              match remaining with
              | 0 => .error (.unsettledClearing path options.maxDepth) state
              | remaining + 1 =>
                let edited := stage.setInstanceable ancestor false state
                Outcome.after edited.events <|
                  match edited.result with
                  | .error fault => .error fault edited.state
                  | .ok () =>
                    (stage.reveal path options remaining edited.state).after
                      [.cleared found (options.maxDepth - remaining)] := by
  have nearest := Stage.nearestAncestor?_state settled path state
  rw [reveal, settled.primAt?]
  cases (stage.primAt? path state).1 with
  | some prim => rfl
  | none =>
      dsimp only
      rw [Stage.resolve_state settled path options state]
      generalize stage.nearestAncestor? path state = found at nearest ⊢
      obtain ⟨answer, after⟩ := found
      obtain rfl : after = state := nearest
      rcases (stage.resolve path options after).result with fault | _ | prim
      · rfl
      · rfl
      · cases answer <;> rfl

theorem reveal_keeps (settled : stage.Settled) {Keeps : σ → Prop}
    (cleared : ∀ prim state, Keeps state → Keeps (stage.setInstanceable prim false state).state)
    (path : Path) (options : ForwardingOptions) (remaining : Nat) (state : σ)
    (kept : Keeps state) : Keeps (stage.reveal path options remaining state).state := by
  induction remaining using Nat.strongRecOn generalizing state with
  | ind remaining ih =>
      rw [reveal_eq settled]
      split
      · exact kept
      dsimp only [Outcome.after_state]
      split
      · exact kept
      · exact kept
      · exact kept
      next found ancestor _ _ =>
        have keptOn := cleared ancestor state kept
        split
        · exact kept
        split
        · exact kept
        split
        · exact keptOn
        · exact ih _ (by omega) _ keptOn

theorem uninstance_keeps (settled : stage.Settled) {Keeps : σ → Prop}
    (cleared : ∀ prim state, Keeps state → Keeps (stage.setInstanceable prim false state).state)
    (path : Path) (options : ForwardingOptions) (state : σ) (kept : Keeps state) :
    Keeps (stage.uninstance path options state).state := by
  rw [uninstance]
  cases options.validate with
  | error fault => exact kept
  | ok _ => exact reveal_keeps settled cleared path options _ state kept

end EditableStage

end SceneGraph
