import SceneGraph.Proofs.Path.Absolute
import SceneGraph.ScriptedStage

/-!
Higher limits on forwarding. Whatever a stage answers, what comes to an end within a limit comes to
the same end under every higher one, so that a limit decides only whether there is an end.
-/

namespace SceneGraph

variable {σ Prim α : Type}

/-- Ended by the limit on forwarding, and not by what the stage answered. -/
def Outcome.Unsettled (outcome : Outcome σ α) : Prop :=
  ∃ path limit, outcome.result = .error (.unsettledForwarding path limit)

namespace Stage

variable (stage : Stage σ Prim)

theorem settle_raised (path : Path) (limit more remaining : Nat) (target : Path) (state : σ) :
    (stage.settle path limit remaining target state).Unsettled ∨
      stage.settle path (limit + more) (remaining + more) target state =
        stage.settle path limit remaining target state := by
  induction remaining using Nat.strongRecOn generalizing target state with
  | ind remaining ih =>
      rw [settle, settle]
      rcases stage.primAt? target state with ⟨_ | prim, state⟩
      · dsimp only
        rcases stage.forwardedTarget target state with ⟨_ | _ | next, state⟩
        · exact Or.inr rfl
        · exact Or.inr rfl
        cases remaining with
        | zero => exact Or.inl ⟨path, limit, rfl⟩
        | succ remaining =>
            rw [Nat.add_right_comm]
            dsimp only
            rcases ih remaining (Nat.lt_succ_self _) next state with ⟨other, bound, failed⟩ | same
            · exact Or.inl ⟨other, bound, failed⟩
            · rw [same, Nat.add_sub_add_right]
              exact Or.inr rfl
      · exact Or.inr rfl

/-- What is found, is missing or fails within a limit does so under every higher one, with the same
report and leaving the same state; and what a higher limit does not settle, no lower one settles. -/
theorem resolve_raised (path : Path) (lower higher : ForwardingOptions)
    (positive : 0 < lower.maxDepth) (raised : lower.maxDepth ≤ higher.maxDepth) (state : σ) :
    (¬(stage.resolve path lower state).Unsettled →
      (stage.resolve path higher state).result = (stage.resolve path lower state).result ∧
      (stage.resolve path higher state).state = (stage.resolve path lower state).state ∧
      (stage.resolve path higher state).events.tail =
        (stage.resolve path lower state).events.tail) ∧
    ((stage.resolve path higher state).Unsettled →
      (stage.resolve path lower state).Unsettled) := by
  have lowerValid : lower.validate = .ok () := if_neg (by omega)
  have higherValid : higher.validate = .ok () := if_neg (by omega)
  obtain ⟨more, same⟩ := Nat.exists_eq_add_of_le raised
  rw [resolve, resolve, lowerValid, higherValid, same]
  rcases stage.settle_raised path lower.maxDepth more lower.maxDepth path state with
    unsettled | equal
  · exact ⟨fun settled => absurd unsettled settled, fun _ => unsettled⟩
  · dsimp only
    rw [equal]
    exact ⟨fun _ => ⟨rfl, rfl, rfl⟩, id⟩

end Stage

namespace ScriptedStage

def lamp : Name := ⟨"Lamp", by decide⟩
def bulb : Name := ⟨"bulb", by decide⟩

/-- A lamp that shares itself, so that its bulb is looked up again and again, and is there only the
fourth time. -/
def flickering : State :=
  State.withEntries {}
    [⟨.absolute [lamp], [some ⟨.absolute [lamp], true, some (.plain (.absolute [lamp]))⟩]⟩,
      ⟨.absolute [lamp, bulb], [none, none, none, some ⟨.absolute [lamp, bulb], false, none⟩]⟩]

theorem flickering_raised :
    let path := Path.absolute [lamp, bulb]
    let resolved limit := stage.resolve path ⟨limit⟩ flickering
    (resolved 3).result = .ok (some ⟨path, false, none⟩) ∧
      (resolved 64).result = (resolved 3).result ∧
      (resolved 2).Unsettled ∧ (resolved 1).Unsettled := by
  intro path resolved
  have found : (resolved 3).result = .ok (some ⟨path, false, none⟩) := by decide +kernel
  have unsettled : (resolved 2).Unsettled := ⟨path, 2, by decide +kernel⟩
  obtain ⟨same, _⟩ := stage.resolve_raised path ⟨3⟩ ⟨64⟩ (by decide) (by decide) flickering
  obtain ⟨_, lowered⟩ := stage.resolve_raised path ⟨1⟩ ⟨2⟩ (by decide) (by decide) flickering
  refine ⟨found, (same ?_).1, unsettled, lowered unsettled⟩
  rintro ⟨other, limit, failed⟩
  cases found.symm.trans failed

end ScriptedStage

end SceneGraph
