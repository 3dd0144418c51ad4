import SceneGraph.Proofs.Forwarding.Raised
import SceneGraph.Proofs.Forwarding.Recording

/-!
What forwarding reports, held against the calls it makes. Whatever a stage answers, the hops that
are reported are the hops made, each going on from where the one before it led to, and the last of
them leads to where the answer is looked up.
-/

namespace SceneGraph

variable {σ Prim : Type}

namespace Stage

/-- From a path without a prim, through the instance that is the nearest prim above it, to where the
path continues below that instance's prototype. -/
structure Hop (stage : Stage σ Prim) where
  source : Path
  passed : List Path
  found : Path
  ancestor : Prim
  prototype : Prim
  suffix : Path
  next : Path
  nearest : passed ++ [found] <+: source.ancestors
  isPrim : found.isPrimPath = true
  instanced : stage.isInstance ancestor = true
  cut : source.relativeTo? (stage.path ancestor) = some suffix
  continued : (stage.path prototype).append? suffix = some next

variable {stage : Stage σ Prim}

def Hop.calls (hop : Hop stage) : List (Access Prim) :=
  .lookedUp hop.source none :: (hop.passed.map (.lookedUp · none) ++
    [.lookedUp hop.found (some hop.ancestor), .dereferenced hop.ancestor (some hop.prototype)])

theorem Hop.reads (hop : Hop stage) : Reads 1 hop.calls := by
  have passing : Reads 0 (hop.passed.map (.lookedUp · none) : List (Access Prim)) :=
    ⟨by simp [Access.isEdit], by simp [List.countP_map, Function.comp_def, Access.isDereference]⟩
  have reading := (Reads.lookedUp hop.source none).append <| passing.append <|
    (Reads.lookedUp hop.found (some hop.ancestor)).append <|
      Reads.dereferenced hop.ancestor (some hop.prototype)
  simpa [Hop.calls] using reading

theorem reads_hops (hops : List (Hop stage)) : Reads hops.length (hops.flatMap Hop.calls) := by
  induction hops with
  | nil => exact Reads.nil
  | cons hop rest ih =>
      rw [List.flatMap_cons, List.length_cons, Nat.add_comm]
      exact hop.reads.append ih

variable (stage)

theorem forwardedTarget_ne_unsettled (target path : Path) (limit : Nat) (state : σ) :
    (stage.forwardedTarget target state).1 ≠ .error (.unsettledForwarding path limit) := by
  rw [forwardedTarget]
  rcases stage.nearestAncestor? target state with ⟨_ | ⟨found, prim⟩, state⟩
  · simp
  dsimp only
  split
  · simp
  split
  · simp
  split
  · simp
  split <;> simp

theorem forwardedTarget_recording (target : Path) (recorded : Recorded σ Prim) :
    ∃ calls, Reads 1 calls ∧
      stage.recording.forwardedTarget target recorded =
        ((stage.forwardedTarget target recorded.state).1,
          ⟨(stage.forwardedTarget target recorded.state).2, recorded.record ++ calls⟩) ∧
      ∀ next, (stage.forwardedTarget target recorded.state).1 = .ok (some next) →
        ∃ hop : Hop stage, hop.source = target ∧ hop.next = next ∧
          hop.calls = .lookedUp target none :: calls := by
  obtain ⟨calls, reads, ran, ending⟩ := stage.nearestAncestor?_recording target recorded
  have few : Reads 1 calls := reads.mono (Nat.zero_le 1)
  simp only [Stage.forwardedTarget, ran, recording_isInstance, recording_path]
  rcases nearest : stage.nearestAncestor? target recorded.state with ⟨_ | ⟨found, prim⟩, state⟩
  · exact ⟨calls, few, rfl, by simp⟩
  cases instanced : stage.isInstance prim with
  | false => exact ⟨calls, few, by simp [instanced], by simp [instanced]⟩
  | true =>
      cases cut : target.relativeTo? (stage.path prim) with
      | none => exact ⟨calls, few, by simp [instanced, cut], by simp [instanced, cut]⟩
      | some suffix =>
          rcases asked : stage.prototype? prim state with ⟨answer, state⟩
          refine ⟨calls ++ [.dereferenced prim answer],
            reads.append (Reads.dereferenced prim answer), ?_⟩
          cases answer with
          | none =>
              exact ⟨by simp [instanced, cut, recording_prototype?, asked],
                by simp [instanced, cut, asked]⟩
          | some prototype =>
              cases continued : (stage.path prototype).append? suffix with
              | none =>
                  exact ⟨by simp [instanced, cut, recording_prototype?, asked, continued],
                    by simp [instanced, cut, asked, continued]⟩
              | some next =>
                  refine ⟨by simp [instanced, cut, recording_prototype?, asked, continued], ?_⟩
                  obtain ⟨isPrim, passed, within, rfl⟩ := ending found prim (by rw [nearest])
                  intro other same
                  obtain rfl : next = other := by
                    simpa [instanced, cut, asked, continued] using same
                  exact ⟨⟨target, passed, found, prim, prototype, suffix, next, within, isPrim,
                    instanced, cut, continued⟩, rfl, rfl, by simp [Hop.calls]⟩

/-- How a target was followed after `done` hops, with `remaining` still allowed: through these hops,
each going on from where the one before it led to, and on to the last path, where these final calls
were made. -/
structure Traced (target : Path) (done remaining : Nat) (outcome : Outcome σ (Option Prim))
    (hops : List (Hop stage)) (last : Path) (final : List (Access Prim)) : Prop where
  linked : hops.map Hop.source ++ [last] = target :: hops.map Hop.next
  bounded : hops.length ≤ remaining
  events : outcome.events =
    hops.mapIdx fun index hop => .forwarded (done + index + 1) hop.source hop.next
  reads : Reads 1 final
  asked : ∃ answer, [.lookedUp last answer] <+: final
  found : ∀ prim, outcome.result = .ok (some prim) → final = [.lookedUp last (some prim)]
  unsettled : outcome.Unsettled → hops.length = remaining

variable {stage}

theorem Traced.ended {target : Path} {answer : Option Prim} {calls : List (Access Prim)}
    {outcome : Outcome σ (Option Prim)} (done remaining : Nat) (reads : Reads 1 calls)
    (quiet : outcome.events = [])
    (found : ∀ prim, outcome.result = .ok (some prim) → answer = some prim ∧ calls = [])
    (unsettled : outcome.Unsettled → remaining = 0) :
    Traced stage target done remaining outcome [] target (.lookedUp target answer :: calls) where
  linked := rfl
  bounded := Nat.zero_le _
  events := quiet
  reads := (Reads.lookedUp target answer).append reads
  asked := ⟨answer, by simp⟩
  found prim ended := by
    obtain ⟨rfl, rfl⟩ := found prim ended
    rfl
  unsettled ended := (unsettled ended).symm

theorem Traced.hop {hop : Hop stage} {done remaining : Nat} {outcome : Outcome σ (Option Prim)}
    {hops : List (Hop stage)} {last : Path} {final : List (Access Prim)}
    (traced : Traced stage hop.next (done + 1) remaining outcome hops last final) :
    Traced stage hop.source done (remaining + 1)
      (outcome.after [.forwarded (done + 1) hop.source hop.next]) (hop :: hops) last final where
  linked := by simp [traced.linked]
  bounded := Nat.succ_le_succ traced.bounded
  events := by
    rw [Outcome.after_events, traced.events, List.mapIdx_cons]
    simp [Nat.add_assoc, Nat.add_comm 1]
  reads := traced.reads
  asked := traced.asked
  found := traced.found
  unsettled ended := congrArg (· + 1) (traced.unsettled ended)

variable (stage)

theorem settle_traced (path : Path) {limit done remaining : Nat}
    (counted : done + remaining = limit) (target : Path) (recorded : Recorded σ Prim) :
    ∃ hops last final,
      stage.recording.settle path limit remaining target recorded =
        (stage.settle path limit remaining target recorded.state).recorded
          (recorded.record ++ (hops.flatMap Hop.calls ++ final)) ∧
      Traced stage target done remaining
        (stage.settle path limit remaining target recorded.state) hops last final := by
  -- What is done and what remains make up the limit, which is where a hop has its number from.
  induction remaining using Nat.strongRecOn generalizing done target recorded with
  | ind remaining ih =>
      rw [settle, settle]
      rcases asked : stage.primAt? target recorded.state with ⟨_ | prim, state⟩
      · obtain ⟨calls, reads, ran, hopped⟩ := stage.forwardedTarget_recording target
          ⟨state, recorded.record ++ [.lookedUp target none]⟩
        have limited := stage.forwardedTarget_ne_unsettled target
        simp only [recording_primAt?, asked, ran]
        rcases forwarded : stage.forwardedTarget target state with ⟨fault | _ | next, after⟩
        · refine ⟨[], target, .lookedUp target none :: calls, ?_,
            Traced.ended done remaining reads rfl (by simp) ?_⟩
          · simp
          · rintro ⟨other, bound, failed⟩
            cases failed
            exact absurd (by rw [forwarded]) (limited other bound state)
        · refine ⟨[], target, .lookedUp target none :: calls, ?_,
            Traced.ended done remaining reads rfl (by simp) ?_⟩
          · simp
          · rintro ⟨_, _, failed⟩
            cases failed
        cases remaining with
        | zero =>
            refine ⟨[], target, .lookedUp target none :: calls, ?_,
              Traced.ended done 0 reads rfl (by simp) fun _ => rfl⟩
            simp
        | succ remaining =>
            obtain ⟨hop, rfl, rfl, called⟩ := hopped next (by rw [forwarded])
            have later : done + 1 + remaining = limit := by omega
            have number : limit - remaining = done + 1 := by omega
            obtain ⟨hops, last, final, laterRan, traced⟩ := ih remaining (Nat.lt_succ_self _) later
              hop.next ⟨after, recorded.record ++ [.lookedUp hop.source none] ++ calls⟩
            refine ⟨hop :: hops, last, final, ?_, ?_⟩
            · simp only [laterRan]
              simp [called]
            · dsimp only
              rw [number]
              exact traced.hop
      · simp only [recording_primAt?, asked]
        refine ⟨[], target, [.lookedUp target (some prim)], ?_,
          Traced.ended done remaining (Reads.nil.mono (Nat.zero_le 1)) rfl ?_ ?_⟩
        · simp
        · rintro other same
          cases same
          exact ⟨rfl, rfl⟩
        · rintro ⟨_, _, failed⟩
          cases failed

theorem resolve_recording (path : Path) (options : ForwardingOptions)
    (recorded : Recorded σ Prim) : ∃ calls, Reads (options.maxDepth + 1) calls ∧
      stage.recording.resolve path options recorded =
        (stage.resolve path options recorded.state).recorded (recorded.record ++ calls) := by
  rw [Stage.resolve, Stage.resolve]
  cases options.validate with
  | error fault =>
      exact ⟨[], Reads.nil.mono (Nat.zero_le _),
        by simp⟩
  | ok _ =>
      obtain ⟨hops, last, final, ran, traced⟩ :=
        stage.settle_traced path (Nat.zero_add options.maxDepth) path recorded
      refine ⟨_, ((reads_hops hops).append traced.reads).mono ?_, ?_⟩
      · exact Nat.succ_le_succ traced.bounded
      · dsimp only
        rw [ran]
        rfl

/-- The hops that resolving reports are those it makes, in order and numbered from 1 on. The first
one starts at the path and each other one where the one before it led to, the answer is looked up
where the last one led to, and a path that does not settle has hopped as often as it may. -/
theorem resolve_traced (path : Path) (options : ForwardingOptions)
    (positive : 0 < options.maxDepth) (state : σ) :
    ∃ (hops : List (Hop stage)) (last : Path) (final : List (Access Prim)),
      stage.recording.resolve path options ⟨state, []⟩ =
        (stage.resolve path options state).recorded (hops.flatMap Hop.calls ++ final) ∧
      (stage.resolve path options state).events = .resolving path options.maxDepth ::
        hops.mapIdx (fun index hop => .forwarded (index + 1) hop.source hop.next) ∧
      hops.map Hop.source ++ [last] = path :: hops.map Hop.next ∧
      hops.length ≤ options.maxDepth ∧ Reads 1 final ∧
      (∃ answer, [.lookedUp last answer] <+: final) ∧
      (∀ prim, (stage.resolve path options state).result = .ok (some prim) →
        final = [.lookedUp last (some prim)]) ∧
      ((stage.resolve path options state).Unsettled → hops.length = options.maxDepth) := by
  have valid : options.validate = .ok () := if_neg (by omega)
  obtain ⟨hops, last, final, ran, traced⟩ :=
    stage.settle_traced path (Nat.zero_add options.maxDepth) path ⟨state, []⟩
  simp only [resolve, valid, ran]
  refine ⟨hops, last, final, rfl, ?_, traced.linked, traced.bounded, traced.reads, traced.asked,
    traced.found, traced.unsettled⟩
  simp [traced.events]

end Stage

namespace ScriptedStage

theorem flickering_traced :
    let path := Path.absolute [lamp, bulb]
    let resolved limit := stage.resolve path ⟨limit⟩ flickering
    (∃ (hops : List (Stage.Hop stage.toStage)) (last : Path), hops.length = 3 ∧
      (stage.toStage.recording.resolve path ⟨64⟩ ⟨flickering, []⟩).state.record =
        hops.flatMap Stage.Hop.calls ++ [.lookedUp last (some ⟨path, false, none⟩)] ∧
      (resolved 64).events = .resolving path 64 ::
        hops.mapIdx (fun index hop => .forwarded (index + 1) hop.source hop.next) ∧
      hops.map Stage.Hop.source ++ [last] = path :: hops.map Stage.Hop.next) ∧
    ∃ hops : List (Stage.Hop stage.toStage), hops.length = 2 ∧ (resolved 2).Unsettled ∧
      (resolved 2).events = .resolving path 2 ::
        hops.mapIdx (fun index hop => .forwarded (index + 1) hop.source hop.next) := by
  intro path resolved
  have answered : (resolved 64).result = .ok (some ⟨path, false, none⟩) := by decide +kernel
  have reported : (resolved 64).events.length = 4 := by decide +kernel
  have unsettled : (resolved 2).Unsettled := ⟨path, 2, by decide +kernel⟩
  obtain ⟨hops, last, final, ran, events, linked, _, _, _, found, _⟩ :=
    stage.resolve_traced path ⟨64⟩ (by decide) flickering
  obtain ⟨others, _, _, _, otherEvents, _, _, _, _, _, limited⟩ :=
    stage.resolve_traced path ⟨2⟩ (by decide) flickering
  obtain rfl := found _ answered
  refine ⟨⟨hops, last, ?_, by rw [ran]; rfl, events, linked⟩, others, limited unsettled, unsettled,
    otherEvents⟩
  have counted : (resolved 64).events.length = _ := congrArg List.length events
  rw [reported] at counted
  simpa using counted.symm

end ScriptedStage

end SceneGraph
