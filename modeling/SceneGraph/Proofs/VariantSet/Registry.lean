import SceneGraph.VariantSet.Registry

/-!
The registry over a run of calls. Its first call decides what every later one is answered; later
installations are refused, whatever they bring, and nothing but a first installation is reported.
-/

namespace SceneGraph.Registry

inductive Call
  | install (plugins : List Plugin)
  | sets

def Call.isInstall : Call → Bool
  | .install _ => true
  | .sets => false

def Call.fixes : Call → VariantSets
  | .install plugins => (collectVariantSets plugins).sets
  | .sets => ∅

inductive Reply
  | installed (won : Bool)
  | sets (sets : VariantSets)

structure Answer where
  reply : Reply
  reports : List Report

def perform (registry : Registry) : Call → Answer × Registry
  | .install plugins =>
    let done := registry.install plugins
    (⟨.installed done.installed, done.reports⟩, done.registry)
  | .sets =>
    let (sets, registry) := registry.sets
    (⟨.sets sets, []⟩, registry)

def run (registry : Registry) : List Call → List Answer
  | [] => []
  | call :: rest => (registry.perform call).1 :: (registry.perform call).2.run rest

/-- All that a call is answered, and reports, when `sets` have been fixed before. -/
def lateAnswer (sets : VariantSets) (installs : Bool) : Answer :=
  if installs then ⟨.installed false, []⟩ else ⟨.sets sets, []⟩

theorem perform_fixed (sets : VariantSets) (call : Call) :
    (Registry.fixed sets).perform call = (lateAnswer sets call.isInstall, .fixed sets) := by
  cases call <;> rfl

theorem perform_unused (call : Call) :
    Registry.unused.perform call = ((Registry.unused.perform call).1, .fixed call.fixes) := by
  cases call <;> rfl

theorem run_fixed (sets : VariantSets) (calls : List Call) :
    (Registry.fixed sets).run calls = (calls.map Call.isInstall).map (lateAnswer sets) := by
  induction calls with
  | nil => rfl
  | cons call rest ih => rw [run, perform_fixed, ih, List.map_cons, List.map_cons]

theorem run_unused (first : Call) (rest : List Call) :
    Registry.unused.run (first :: rest) =
      (Registry.unused.perform first).1 ::
        (rest.map Call.isInstall).map (lateAnswer first.fixes) := by
  rw [run, perform_unused, run_fixed]

theorem length_run (registry : Registry) (calls : List Call) :
    (registry.run calls).length = calls.length := by
  induction calls generalizing registry with
  | nil => rfl
  | cons call rest ih => rw [run, List.length_cons, ih, List.length_cons]

theorem run_unused_later {calls : List Call} {index : Nat} {call : Call}
    (here : calls[index + 1]? = some call) : (Registry.unused.run calls)[index + 1]? =
      some (lateAnswer (calls.head?.elim ∅ Call.fixes) call.isInstall) := by
  cases calls with
  | nil => cases here
  | cons first rest =>
      rw [List.getElem?_cons_succ] at here
      rw [run_unused, List.getElem?_cons_succ, List.getElem?_map, List.getElem?_map, here]
      rfl

/-- On a registry that has not been used, an installation wins exactly if it is the first of all
calls, and then reports what is wrong with its declarations and that it has been made. Nothing else
is reported, all calls for the sets are answered with those the first call fixes, and what later
installations bring makes no difference. -/
theorem run_frozen (calls : List Call) :
    (Registry.unused.run calls).length = calls.length ∧
    (∀ (index : Nat) plugins, calls[index]? = some (.install plugins) →
      (Registry.unused.run calls)[index]? = some
        (if index = 0 then
          ⟨.installed true, (collectVariantSets plugins).faults.map DeclarationFault.report ++
            [.noted .debug "installed registered variant sets"
              [("plugins", .count plugins.length)]]⟩
        else ⟨.installed false, []⟩)) ∧
    (∀ index : Nat, calls[index]? = some .sets →
      (Registry.unused.run calls)[index]? =
        some ⟨.sets (calls.head?.elim ∅ Call.fixes), []⟩) ∧
    ∀ others, others.head? = calls.head? →
      others.map Call.isInstall = calls.map Call.isInstall →
      Registry.unused.run others = Registry.unused.run calls := by
  refine ⟨length_run _ calls, fun index plugins here => ?_, fun index here => ?_,
    fun others sameFirst sameKinds => ?_⟩
  · cases index with
    | zero =>
        obtain ⟨rest, rfl⟩ := List.head?_eq_some_iff.mp (List.head?_eq_getElem? ▸ here)
        rfl
    | succ index => exact run_unused_later here
  · cases index with
    | zero =>
        obtain ⟨rest, rfl⟩ := List.head?_eq_some_iff.mp (List.head?_eq_getElem? ▸ here)
        rfl
    | succ index => exact run_unused_later here
  · cases calls with
    | nil =>
        rw [List.map_eq_nil_iff.mp sameKinds]
    | cons first rest =>
        obtain ⟨otherRest, rfl⟩ := List.head?_eq_some_iff.mp sameFirst
        rw [run_unused, run_unused, (List.cons.inj sameKinds).2]

theorem run_frozen_studio :
    let kit : Plugin := ⟨"kit", .ofList [("UsdUtilsPipeline", .object [("RegisteredVariantSets",
      .object [("lod", .object [("selectionExportPolicy", .string "always")]),
        ("paint", .null)])])]⟩
    let late : Plugin := ⟨"late", .ofList [("UsdUtilsPipeline", .null)]⟩
    let calls : List Call := [.install [kit], .sets, .install [late, kit], .sets]
    let others : List Call := [.install [kit], .sets, .install [], .sets]
    let answers := Registry.unused.run calls
    calls[0]? = some (.install [kit]) ∧
      answers[0]? = some ⟨.installed true, [
        (DeclarationFault.entryNotDictionary "kit" "paint").report,
        .noted .debug "installed registered variant sets" [("plugins", .count 1)]]⟩ ∧
      calls[2]? = some (.install [late, kit]) ∧
      answers[2]? = some ⟨.installed false, []⟩ ∧
      calls[3]? = some .sets ∧
      answers[3]? = some ⟨.sets (.ofList [⟨"lod", .always⟩]), []⟩ ∧
      others.head? = calls.head? ∧
      others.map Call.isInstall = calls.map Call.isInstall ∧
      Registry.unused.run others = answers := by
  intro kit late calls others answers
  obtain ⟨_, installations, readings, unread⟩ := run_frozen calls
  have faults : (collectVariantSets [kit]).faults = [.entryNotDictionary "kit" "paint"] := by
    decide +kernel
  have sets : calls.head?.elim ∅ Call.fixes = VariantSets.ofList [⟨"lod", .always⟩] := by
    decide +kernel
  have first := installations 0 [kit] rfl
  have last := readings 3 rfl
  rw [faults] at first
  rw [sets] at last
  exact ⟨rfl, first, rfl, installations 2 [late, kit] rfl, rfl, last, rfl, rfl,
    unread others rfl rfl⟩

end SceneGraph.Registry
