import SceneGraph.Proofs.Forwarding.Trace

/-!
What uninstancing asks of a stage, whatever the stage answers and however it changes on the way: it
clears only instances just looked up above the path, no more of them than the limit allows, and it
gives up at the first edit that is refused.
-/

namespace SceneGraph

variable {σ Prim : Type}

/-- Calls that end in `result` and keep to the rules of uninstancing `path`. -/
structure Disciplined (stage : EditableStage σ Prim) (path : Path) (edits dereferences : Nat)
    (calls : List (Access Prim)) (result : Except Fault (Option Prim)) : Prop where
  clears : ∀ before prim flag answer after, calls = before ++ .edited prim flag answer :: after →
    flag = false ∧ stage.isInstance prim = true ∧
      ∃ found ∈ path.ancestors, found.isPrimPath = true ∧ [.lookedUp found (some prim)] <:+ before
  refused : ∀ before prim flag fault after,
    calls = before ++ .edited prim flag (.error fault) :: after → after = [] ∧ result = .error fault
  found : ∀ prim, result = .ok (some prim) → [.lookedUp path (some prim)] <:+ calls
  accepted : calls.countP Access.isAcceptedEdit ≤ edits
  asked : calls.countP Access.isDereference ≤ dereferences

namespace Reads

variable {few : Nat} {calls : List (Access Prim)}

theorem split (reads : Reads few calls) {rest before after : List (Access Prim)} {prim : Prim}
    {flag : Bool} {answer : Except Fault Unit}
    (same : calls ++ rest = before ++ .edited prim flag answer :: after) :
    ∃ between, before = calls ++ between ∧ rest = between ++ .edited prim flag answer :: after := by
  rcases List.append_eq_append_iff.mp same with ⟨between, earlier, later⟩ | ⟨between, reading, _⟩
  · exact ⟨between, earlier, later⟩
  · cases between with
    | nil =>
        refine ⟨[], by simpa using reading.symm, ?_⟩
        simp_all
    | cons call others =>
        have edited : call = .edited prim flag answer := by simp_all
        have unedited := reads.unedited call (by simp [reading])
        simp [edited, Access.isEdit] at unedited

theorem ne_edited (reads : Reads few calls) (before after : List (Access Prim)) {prim : Prim}
    {flag : Bool} {answer : Except Fault Unit} :
    calls ≠ before ++ .edited prim flag answer :: after := by
  intro same
  have unedited := reads.unedited (.edited prim flag answer) (by simp [same])
  simp [Access.isEdit] at unedited

theorem accepted (reads : Reads few calls) : calls.countP Access.isAcceptedEdit = 0 := by
  rw [List.countP_eq_zero]
  intro call member
  have unedited := reads.unedited call member
  cases call <;> simp_all [Access.isEdit, Access.isAcceptedEdit]

theorem disciplined (reads : Reads few calls) (stage : EditableStage σ Prim) {path : Path}
    {edits dereferences : Nat} {result : Except Fault (Option Prim)}
    (found : ∀ prim, result = .ok (some prim) → [.lookedUp path (some prim)] <:+ calls)
    (bound : few ≤ dereferences) :
    Disciplined stage path edits dereferences calls result where
  clears before prim flag answer after same := absurd same (reads.ne_edited before after)
  refused before prim flag fault after same := absurd same (reads.ne_edited before after)
  found := found
  accepted := by simp [reads.accepted]
  asked := Nat.le_trans reads.few bound

end Reads

namespace Disciplined

variable {stage : EditableStage σ Prim} {path found : Path} {few edits dereferences : Nat}
  {reading calls : List (Access Prim)} {prim : Prim} {result : Except Fault (Option Prim)}

theorem clear (reads : Reads few reading) (instanced : stage.isInstance prim = true)
    (above : found ∈ path.ancestors) (isPrim : found.isPrimPath = true)
    (last : [.lookedUp found (some prim)] <:+ reading) (answer : Except Fault Unit)
    (refusal : ∀ fault, answer = .error fault → calls = [] ∧ result = .error fault)
    (disciplined : Disciplined stage path edits dereferences calls result) :
    Disciplined stage path (edits + 1) (few + dereferences)
      (reading ++ .edited prim false answer :: calls) result where
  clears before other flag reply after same := by
    obtain ⟨between, rfl, rest⟩ := reads.split same
    cases between with
    | nil =>
        obtain ⟨⟨rfl, rfl, rfl⟩, rfl⟩ :
            (prim = other ∧ false = flag ∧ answer = reply) ∧ calls = after := by
          simpa using rest
        exact ⟨rfl, instanced, found, above, isPrim, by simpa using last⟩
    | cons call others =>
        obtain ⟨rfl, later⟩ := List.cons.inj rest
        obtain ⟨cleared, isInstance, place, member, named, lookedUp⟩ :=
          disciplined.clears others other flag reply after later
        exact ⟨cleared, isInstance, place, member, named,
          lookedUp.trans ((List.suffix_cons _ _).trans (List.suffix_append _ _))⟩
  refused before other flag fault after same := by
    obtain ⟨between, rfl, rest⟩ := reads.split same
    cases between with
    | nil =>
        obtain ⟨⟨rfl, rfl, rfl⟩, rfl⟩ :
            (prim = other ∧ false = flag ∧ answer = .error fault) ∧ calls = after := by
          simpa using rest
        exact refusal fault rfl
    | cons call others =>
        obtain ⟨rfl, later⟩ := List.cons.inj rest
        exact disciplined.refused others other flag fault after later
  found other same :=
    (disciplined.found other same).trans
      ((List.suffix_cons _ _).trans (List.suffix_append _ _))
  accepted := by
    have later := disciplined.accepted
    rw [List.countP_append, reads.accepted, List.countP_cons]
    split <;> omega
  asked := by
    have earlier := reads.few
    have later := disciplined.asked
    rw [List.countP_append, List.countP_cons_of_neg (by simp [Access.isDereference])]
    omega

end Disciplined

inductive Sighting (Prim : Type)
  | answer (found : Option Prim)
  | behind (path : Path) (ancestor : Prim)

namespace EditableStage

variable (stage : EditableStage σ Prim)

def sight (path : Path) (options : ForwardingOptions) (state : σ) : Outcome σ (Sighting Prim) :=
  match stage.primAt? path state with
  | (some prim, state) => .ok (.answer (some prim)) state
  | (none, state) =>
    let resolved := stage.resolve path options state
    Outcome.after resolved.events <|
      match resolved.result with
      | .error fault => .error fault resolved.state
      | .ok none => .ok (.answer none) resolved.state
      | .ok (some _) =>
        match stage.nearestAncestor? path resolved.state with
        | (none, state) => .ok (.answer none) state
        | (some (found, ancestor), state) =>
          if !stage.isInstance ancestor then .error (.hiddenByPrim path found) state
          else .ok (.behind found ancestor) state

theorem reveal_eq_sight (path : Path) (options : ForwardingOptions) (remaining : Nat) (state : σ) :
    stage.reveal path options remaining state =
      let sighted := stage.sight path options state
      Outcome.after sighted.events <|
        match sighted.result, remaining with
        | .error fault, _ => .error fault sighted.state
        | .ok (.answer found), _ => .ok found sighted.state
        | .ok (.behind _ _), 0 => .error (.unsettledClearing path options.maxDepth) sighted.state
        | .ok (.behind found ancestor), remaining + 1 =>
          let edited := stage.setInstanceable ancestor false sighted.state
          Outcome.after edited.events <|
            match edited.result with
            | .error fault => .error fault edited.state
            | .ok () =>
              (stage.reveal path options remaining edited.state).after
                [.cleared found (options.maxDepth - remaining)] := by
  rw [reveal, sight]
  rcases stage.primAt? path state with ⟨_ | prim, state⟩
  · dsimp only
    rcases stage.resolve path options state with ⟨fault | _ | target, state, events⟩
    · simp
    · simp
    dsimp only
    rcases stage.nearestAncestor? path state with ⟨_ | ⟨above, prim⟩, state⟩
    · simp
    cases hidden : stage.isInstance prim with
    | false => simp [hidden]
    | true =>
        cases remaining with
        | zero => simp [hidden]
        | succ remaining =>
            rcases edited : stage.setInstanceable prim false state with ⟨fault | _, _, _⟩ <;>
              simp [hidden, edited]
  · cases remaining <;> simp

theorem sight_recording (path : Path) (options : ForwardingOptions)
    (recorded : Recorded σ Prim) : ∃ calls, Reads (options.maxDepth + 1) calls ∧
      stage.recording.sight path options recorded =
        (stage.sight path options recorded.state).recorded (recorded.record ++ calls) ∧
      (∀ prim, (stage.sight path options recorded.state).result = .ok (.answer (some prim)) →
        [.lookedUp path (some prim)] <:+ calls) ∧
      ∀ found prim, (stage.sight path options recorded.state).result = .ok (.behind found prim) →
        stage.isInstance prim = true ∧ found ∈ path.ancestors ∧ found.isPrimPath = true ∧
          [.lookedUp found (some prim)] <:+ calls := by
  rcases asked : stage.primAt? path recorded.state with ⟨_ | prim, state⟩
  · obtain ⟨resolving, resolvingReads, resolved⟩ := stage.resolve_recording path options
      ⟨state, recorded.record ++ [.lookedUp path none]⟩
    have reads := (Reads.lookedUp path (none : Option Prim)).append resolvingReads
    simp only [sight, recording_toStage, Stage.recording_primAt?, asked, resolved]
    rcases stage.resolve path options state with ⟨fault | _ | target, state, events⟩
    · refine ⟨_, reads.mono (by omega), ?_, ?_, ?_⟩ <;>
        simp
    · refine ⟨_, reads.mono (by omega), ?_, ?_, ?_⟩ <;>
        simp
    obtain ⟨climbing, climbingReads, climbed, ending⟩ := stage.nearestAncestor?_recording path
      ⟨state, recorded.record ++ [.lookedUp path none] ++ resolving⟩
    have reads := reads.append climbingReads
    simp only [Outcome.recorded_result, Outcome.recorded_state, Outcome.recorded_events, climbed,
      Stage.recording_isInstance]
    rcases nearest : stage.nearestAncestor? path state with ⟨_ | ⟨above, prim⟩, state⟩
    · refine ⟨_, reads.mono (by omega), ?_, ?_, ?_⟩ <;> simp
    obtain ⟨isPrim, passed, within, rfl⟩ := ending above prim (by rw [nearest])
    have member : above ∈ path.ancestors := within.subset (by simp)
    cases hidden : stage.isInstance prim with
    | false =>
        refine ⟨_, reads.mono (by omega), ?_, ?_, ?_⟩ <;>
          simp [hidden]
    | true =>
        refine ⟨_, reads.mono (by omega), ?_, ?_, ?_⟩
        · simp [hidden]
        · simp [hidden]
        · intro other handle same
          obtain ⟨rfl, rfl⟩ : above = other ∧ prim = handle := by
            simpa [hidden] using same
          exact ⟨hidden, member, isPrim, (List.suffix_append _ _).trans (List.suffix_append _ _)⟩
  · simp only [sight, recording_toStage, Stage.recording_primAt?, asked]
    refine ⟨[.lookedUp path (some prim)], (Reads.lookedUp path _).mono (Nat.zero_le _), rfl, ?_, ?_⟩
    · intro other same
      cases same
      exact List.suffix_rfl
    · simp

theorem reveal_recording (path : Path) (options : ForwardingOptions) (remaining : Nat)
    (recorded : Recorded σ Prim) : ∃ calls,
      stage.recording.reveal path options remaining recorded =
        (stage.reveal path options remaining recorded.state).recorded (recorded.record ++ calls) ∧
      Disciplined stage path remaining ((remaining + 1) * (options.maxDepth + 1)) calls
        (stage.reveal path options remaining recorded.state).result := by
  induction remaining generalizing recorded with
  | zero =>
      obtain ⟨calls, reads, ran, found, _⟩ := stage.sight_recording path options recorded
      refine ⟨calls, ?_⟩
      rw [reveal_eq_sight, reveal_eq_sight, ran]
      rcases sighted : stage.sight path options recorded.state with
        ⟨fault | (answer | ⟨above, prim⟩), state, events⟩
      · exact ⟨rfl, reads.disciplined stage (by simp) (by omega)⟩
      · refine ⟨rfl, reads.disciplined stage ?_ (by omega)⟩
        rintro prim same
        cases same
        exact found prim (by rw [sighted])
      · exact ⟨rfl, reads.disciplined stage (by simp) (by omega)⟩
  | succ remaining ih =>
      obtain ⟨calls, reads, ran, found, behind⟩ := stage.sight_recording path options recorded
      have room : options.maxDepth + 1 ≤ (remaining + 1 + 1) * (options.maxDepth + 1) :=
        Nat.le_mul_of_pos_left _ (Nat.succ_pos _)
      rw [reveal_eq_sight, reveal_eq_sight, ran]
      rcases sighted : stage.sight path options recorded.state with
        ⟨fault | (answer | ⟨above, prim⟩), state, events⟩
      · exact ⟨calls, rfl, reads.disciplined stage (by simp) room⟩
      · refine ⟨calls, rfl, reads.disciplined stage ?_ room⟩
        rintro prim same
        cases same
        exact found prim (by rw [sighted])
      · obtain ⟨instanced, member, isPrim, last⟩ := behind above prim (by rw [sighted])
        have bound : (remaining + 1 + 1) * (options.maxDepth + 1) =
            options.maxDepth + 1 + (remaining + 1) * (options.maxDepth + 1) := by
          rw [Nat.succ_mul, Nat.add_comm]
        rw [bound]
        rcases cleared : stage.setInstanceable prim false state with
          ⟨fault | ⟨⟩, edited, reports⟩
        · refine ⟨calls ++ [.edited prim false (.error fault)], ?_, ?_⟩
          · simp [recording_setInstanceable, cleared]
          · have nothing : Disciplined stage path remaining
                ((remaining + 1) * (options.maxDepth + 1)) [] (.error fault) :=
              Reads.nil.disciplined stage (by simp) (Nat.zero_le _)
            dsimp only
            rw [cleared]
            refine nothing.clear reads instanced member isPrim last (.error fault) ?_
            intro other same
            cases same
            exact ⟨rfl, rfl⟩
        · obtain ⟨later, laterRan, disciplined⟩ :=
            ih ⟨edited, recorded.record ++ calls ++ [.edited prim false (.ok ())]⟩
          refine ⟨calls ++ .edited prim false (.ok ()) :: later, ?_, ?_⟩
          · rw [List.append_assoc] at laterRan
            simp [recording_setInstanceable, cleared, laterRan]
          · dsimp only
            rw [cleared]
            refine disciplined.clear reads instanced member isPrim last (.ok ()) ?_
            simp

/-- Whatever a stage answers, uninstancing runs on it as on the stage that records its calls. With
no limit to go by it fails before any call; else its calls keep to the rules of uninstancing: every
edit clears an instance just looked up at a prim's path above, no more edits are accepted than the
limit allows, nothing follows an edit that is refused, and a prim is returned only as the last
look-up at the path itself found it. -/
theorem uninstance_disciplined (path : Path) (options : ForwardingOptions) (state : σ) :
    ∃ record, stage.recording.uninstance path options ⟨state, []⟩ =
        (stage.uninstance path options state).recorded record ∧
      (options.maxDepth = 0 → record = [] ∧
        stage.uninstance path options state =
          (Outcome.error .zeroLimit state).after [.uninstancing path 0]) ∧
      Disciplined stage path options.maxDepth ((options.maxDepth + 1) * (options.maxDepth + 1))
        record (stage.uninstance path options state).result := by
  rw [uninstance, uninstance]
  by_cases unlimited : options.maxDepth = 0
  · rw [show options.validate = .error .zeroLimit from if_pos unlimited, unlimited]
    exact ⟨[], rfl, fun _ => ⟨rfl, rfl⟩,
      Reads.nil.disciplined stage (by simp) (Nat.zero_le _)⟩
  · obtain ⟨record, ran, disciplined⟩ :=
      stage.reveal_recording path options options.maxDepth ⟨state, []⟩
    rw [show options.validate = .ok () from if_neg unlimited]
    refine ⟨record, ?_, fun none => absurd none unlimited, disciplined⟩
    dsimp only
    rw [ran]
    rfl

end EditableStage

namespace ScriptedStage

def master : Name := ⟨"Master", by decide⟩

def stubborn : State :=
  State.withEntries {}
    [⟨.absolute [lamp], [some ⟨.absolute [lamp], true, some (.plain (.absolute [master]))⟩]⟩,
      ⟨.absolute [master, bulb], [some ⟨.absolute [master, bulb], false, none⟩]⟩]

theorem stubborn_disciplined :
    let run := stage.recording.uninstance (.absolute [lamp, bulb]) ⟨3⟩ ⟨stubborn, []⟩
    run.result = .error (.unsettledClearing (.absolute [lamp, bulb]) 3) ∧
      run.state.record.countP Access.isAcceptedEdit = 3 ∧
      Disciplined stage (.absolute [lamp, bulb]) 3 16 run.state.record run.result ∧
      stage.uninstance (.absolute [lamp, bulb]) ⟨0⟩ stubborn =
        (Outcome.error .zeroLimit stubborn).after [.uninstancing (.absolute [lamp, bulb]) 0] := by
  intro run
  obtain ⟨record, ran, _, disciplined⟩ :=
    stage.uninstance_disciplined (.absolute [lamp, bulb]) ⟨3⟩ stubborn
  obtain ⟨_, _, unlimited, _⟩ :=
    stage.uninstance_disciplined (.absolute [lamp, bulb]) ⟨0⟩ stubborn
  refine ⟨?_, ?_, ?_, (unlimited rfl).2⟩
  · decide +kernel
  · decide +kernel
  · rw [show run = _ from ran]
    exact disciplined

end ScriptedStage

end SceneGraph
