import Mathlib.Data.List.Forall2
import SceneGraph.Proofs.Json.Values
import SceneGraph.VariantSet

/-!
Variant sets as plugins declare them. Collected is exactly what some plugin declares, and what else
a plugin says where variant sets are declared is reported, each thing once and in key order.
-/

namespace SceneGraph

theorem SelectionPolicy.ofSpelling?_eq_some_iff {text : String} {policy : SelectionPolicy} :
    ofSpelling? text = some policy ↔ text = policy.spelling := by
  constructor
  · intro read
    unfold ofSpelling? at read
    split at read <;> cases read <;> rfl
  · rintro rfl
    cases policy <;> rfl

namespace DeclarationFault

def plugin : DeclarationFault → String
  | .pipelineNotDictionary plugin | .setsNotDictionary plugin
  | .entryNotDictionary plugin _ | .noPolicy plugin _ => plugin

def variantSet? : DeclarationFault → Option String
  | .pipelineNotDictionary _ | .setsNotDictionary _ => none
  | .entryNotDictionary _ variantSet | .noPolicy _ variantSet => some variantSet

def ofResult? : Except DeclarationFault VariantSet → Option DeclarationFault
  | .error fault => some fault
  | .ok _ => none

theorem ofResult?_eq_some_iff {result : Except DeclarationFault VariantSet}
    {fault : DeclarationFault} : ofResult? result = some fault ↔ result = .error fault := by
  cases result <;> simp [ofResult?]

theorem report_names (fault : DeclarationFault) : ∃ message,
    fault.report = .noted .error message (("plugin", .text fault.plugin) ::
      fault.variantSet?.toList.map fun name => ("variant_set", .text name)) := by
  cases fault <;> exact ⟨_, rfl⟩

end DeclarationFault

namespace Plugin

def valueAt? (plugin : Plugin) (keys : List String) : Option Json :=
  (Json.ofDictionary plugin.metadata).valueAt? keys

/-- A plugin declares a set by the policy in the set's entry. -/
def Declares (plugin : Plugin) (set : VariantSet) : Prop :=
  plugin.valueAt?
      ["UsdUtilsPipeline", "RegisteredVariantSets", set.name, "selectionExportPolicy"] =
    some (.string set.policy.spelling)

/-- What a plugin says that is no dictionary where there should be one, and its entries that
declare no set. -/
inductive Misdeclares (plugin : Plugin) : DeclarationFault → Prop
  | pipeline {value} : plugin.valueAt? ["UsdUtilsPipeline"] = some value →
      value.asDictionary? = none → Misdeclares plugin (.pipelineNotDictionary plugin.name)
  | sets {value} : plugin.valueAt? ["UsdUtilsPipeline", "RegisteredVariantSets"] = some value →
      value.asDictionary? = none → Misdeclares plugin (.setsNotDictionary plugin.name)
  | entry {name value} :
      plugin.valueAt? ["UsdUtilsPipeline", "RegisteredVariantSets", name] = some value →
      value.asDictionary? = none → Misdeclares plugin (.entryNotDictionary plugin.name name)
  | policy {name value} :
      plugin.valueAt? ["UsdUtilsPipeline", "RegisteredVariantSets", name] = some value →
      value.asDictionary? ≠ none → (∀ policy, ¬ plugin.Declares ⟨name, policy⟩) →
      Misdeclares plugin (.noPolicy plugin.name name)

variable {plugin : Plugin}

def sets? (plugin : Plugin) : Option Json.Dictionary :=
  (plugin.valueAt? ["UsdUtilsPipeline", "RegisteredVariantSets"]).bind Json.asDictionary?

theorem valueAt?_pipeline (plugin : Plugin) :
    plugin.valueAt? ["UsdUtilsPipeline"] = plugin.metadata.get? "UsdUtilsPipeline" := by
  rw [valueAt?, Json.valueAt?_singleton, Json.asDictionary?_ofDictionary, Option.bind_some]

theorem valueAt?_sets (plugin : Plugin) :
    plugin.valueAt? ["UsdUtilsPipeline", "RegisteredVariantSets"] =
      ((plugin.metadata.get? "UsdUtilsPipeline").bind Json.asDictionary?).bind
        fun pipeline => pipeline.get? "RegisteredVariantSets" := by
  rw [← valueAt?_pipeline]
  exact Json.valueAt?_concat _ ["UsdUtilsPipeline"] _

theorem valueAt?_sets_of_pipeline {value : Json}
    (found : plugin.valueAt? ["UsdUtilsPipeline"] = some value)
    (noDictionary : value.asDictionary? = none) :
    plugin.valueAt? ["UsdUtilsPipeline", "RegisteredVariantSets"] = none := by
  rw [valueAt?_pipeline] at found
  rw [valueAt?_sets, found, Option.bind_some, noDictionary, Option.bind_none]

theorem valueAt?_entry (plugin : Plugin) (name : String) :
    plugin.valueAt? ["UsdUtilsPipeline", "RegisteredVariantSets", name] =
      plugin.sets?.bind fun sets => sets.get? name :=
  Json.valueAt?_concat _ ["UsdUtilsPipeline", "RegisteredVariantSets"] name

theorem valueAt?_policy (plugin : Plugin) (name : String) :
    plugin.valueAt?
        ["UsdUtilsPipeline", "RegisteredVariantSets", name, "selectionExportPolicy"] =
      ((plugin.valueAt? ["UsdUtilsPipeline", "RegisteredVariantSets", name]).bind
        Json.asDictionary?).bind fun info => info.get? "selectionExportPolicy" :=
  Json.valueAt?_concat _ ["UsdUtilsPipeline", "RegisteredVariantSets", name] _

theorem declares_iff {name : String} {value : Json} (policy : SelectionPolicy)
    (found : plugin.valueAt? ["UsdUtilsPipeline", "RegisteredVariantSets", name] = some value) :
    plugin.Declares ⟨name, policy⟩ ↔ ∃ info, value.asDictionary? = some info ∧
      info.get? "selectionExportPolicy" = some (.string policy.spelling) := by
  rw [Declares, valueAt?_policy, found, Option.bind_some, Option.bind_eq_some_iff]

theorem Declares.entry {set : VariantSet} (declares : plugin.Declares set) : ∃ value,
    plugin.valueAt? ["UsdUtilsPipeline", "RegisteredVariantSets", set.name] = some value := by
  rw [Declares, valueAt?_policy] at declares
  obtain ⟨_, info, _⟩ := Option.bind_eq_some_iff.mp declares
  obtain ⟨value, found, _⟩ := Option.bind_eq_some_iff.mp info
  exact ⟨value, found⟩

theorem Declares.unique {name : String} {policy other : SelectionPolicy}
    (declares : plugin.Declares ⟨name, policy⟩) (declaresOther : plugin.Declares ⟨name, other⟩) :
    policy = other := by
  have same : policy.spelling = other.spelling :=
    Json.string.inj (Option.some.inj (declares.symm.trans declaresOther))
  revert same
  cases policy <;> cases other <;> decide

namespace Misdeclares

variable {fault other : DeclarationFault} {name : String}

theorem entry_of_variantSet? (misdeclares : plugin.Misdeclares fault)
    (named : fault.variantSet? = some name) : ∃ value,
    plugin.valueAt? ["UsdUtilsPipeline", "RegisteredVariantSets", name] = some value := by
  cases misdeclares <;> cases named <;> exact ⟨_, by assumption⟩

theorem sets?_eq_none (misdeclares : plugin.Misdeclares fault)
    (unnamed : fault.variantSet? = none) : plugin.sets? = none := by
  cases misdeclares with
  | pipeline found noDictionary =>
      rw [sets?, valueAt?_sets_of_pipeline found noDictionary, Option.bind_none]
  | sets found noDictionary => rw [sets?, found, Option.bind_some, noDictionary]
  | entry => cases unnamed
  | policy => cases unnamed

theorem undeclared (misdeclares : plugin.Misdeclares fault)
    (named : fault.variantSet? = some name) (policy : SelectionPolicy) :
    ¬ plugin.Declares ⟨name, policy⟩ := by
  cases misdeclares with
  | pipeline => cases named
  | sets => cases named
  | entry found noDictionary =>
      cases named
      intro declares
      obtain ⟨_, dictionary, _⟩ := (declares_iff policy found).mp declares
      cases noDictionary.symm.trans dictionary
  | policy _ _ none =>
      cases named
      exact none policy

theorem unique (misdeclares : plugin.Misdeclares fault)
    (misdeclaresOther : plugin.Misdeclares other)
    (same : fault.variantSet? = other.variantSet?) : fault = other := by
  cases misdeclares with
  | pipeline found noDictionary =>
      cases misdeclaresOther with
      | pipeline => rfl
      | sets held => cases (valueAt?_sets_of_pipeline found noDictionary).symm.trans held
      | entry => cases same
      | policy => cases same
  | sets held =>
      cases misdeclaresOther with
      | pipeline found noDictionary =>
          cases (valueAt?_sets_of_pipeline found noDictionary).symm.trans held
      | sets => rfl
      | entry => cases same
      | policy => cases same
  | entry found noDictionary =>
      cases misdeclaresOther with
      | pipeline => cases same
      | sets => cases same
      | entry =>
          cases same
          rfl
      | policy held dictionary =>
          cases same
          cases found.symm.trans held
          exact absurd noDictionary dictionary
  | policy held dictionary =>
      cases misdeclaresOther with
      | pipeline => cases same
      | sets => cases same
      | entry found noDictionary =>
          cases same
          cases found.symm.trans held
          exact absurd noDictionary dictionary
      | policy =>
          cases same
          rfl

end Misdeclares

/-! What is read, against what is declared. -/

theorem variantSet?_of_readEntry {entry : String × Json} {fault : DeclarationFault}
    (read : plugin.readEntry entry = .error fault) : fault.variantSet? = some entry.1 := by
  rw [readEntry] at read
  split at read
  next =>
    cases read
    rfl
  next =>
    split at read
    next =>
      cases read
      rfl
    next => cases read

theorem readEntry_cases {name : String} {value : Json}
    (found : plugin.valueAt? ["UsdUtilsPipeline", "RegisteredVariantSets", name] = some value) :
    (∃ policy, plugin.readEntry (name, value) = .ok ⟨name, policy⟩ ∧
      plugin.Declares ⟨name, policy⟩) ∨
    ∃ fault, plugin.readEntry (name, value) = .error fault ∧ plugin.Misdeclares fault := by
  cases dictionary : value.asDictionary? with
  | none => exact Or.inr ⟨_, by rw [readEntry, dictionary], .entry found dictionary⟩
  | some info =>
      cases spelled : ((info.get? "selectionExportPolicy").bind Json.asString?).bind
          SelectionPolicy.ofSpelling? with
      | none =>
          refine Or.inr ⟨.noPolicy plugin.name name, by simp [readEntry, dictionary, spelled], ?_⟩
          refine .policy found (by simp [dictionary]) fun policy declares => ?_
          obtain ⟨_, same, held⟩ := (declares_iff policy found).mp declares
          cases dictionary.symm.trans same
          have read := SelectionPolicy.ofSpelling?_eq_some_iff.mpr (Eq.refl policy.spelling)
          simp [held, Json.asString?, read] at spelled
      | some policy =>
          refine Or.inl ⟨policy, by simp [readEntry, dictionary, spelled], ?_⟩
          obtain ⟨text, written, read⟩ := Option.bind_eq_some_iff.mp spelled
          obtain ⟨json, held, string⟩ := Option.bind_eq_some_iff.mp written
          rw [Json.asString?_eq_some_iff.mp string,
            SelectionPolicy.ofSpelling?_eq_some_iff.mp read] at held
          exact (declares_iff policy found).mpr ⟨info, dictionary, held⟩

theorem declarations_of_sets {sets : Json.Dictionary} (found : plugin.sets? = some sets) :
    plugin.declarations = sets.entries.map plugin.readEntry := by
  obtain ⟨value, held, dictionary⟩ := Option.bind_eq_some_iff.mp found
  rw [valueAt?_sets] at held
  obtain ⟨pipeline, above, member⟩ := Option.bind_eq_some_iff.mp held
  obtain ⟨top, first, aboveDictionary⟩ := Option.bind_eq_some_iff.mp above
  rw [declarations, first]
  dsimp only
  rw [aboveDictionary]
  dsimp only
  rw [member]
  dsimp only
  rw [dictionary]

theorem Misdeclares.above_entries {fault : DeclarationFault}
    (misdeclares : plugin.Misdeclares fault) (missing : plugin.sets? = none) :
    (∃ value, plugin.metadata.get? "UsdUtilsPipeline" = some value ∧
      value.asDictionary? = none) ∨
    ∃ value, plugin.valueAt? ["UsdUtilsPipeline", "RegisteredVariantSets"] = some value := by
  cases misdeclares with
  | pipeline found noDictionary => exact Or.inl ⟨_, valueAt?_pipeline plugin ▸ found, noDictionary⟩
  | sets found => exact Or.inr ⟨_, found⟩
  | entry found =>
      rw [valueAt?_entry, missing] at found
      cases found
  | policy found =>
      rw [valueAt?_entry, missing] at found
      cases found

theorem declarations_of_no_sets (missing : plugin.sets? = none) :
    plugin.declarations = [] ∧ (∀ fault, ¬ plugin.Misdeclares fault) ∨
      ∃ fault, plugin.declarations = [.error fault] ∧ plugin.Misdeclares fault ∧
        fault.variantSet? = none := by
  have sets := valueAt?_sets plugin
  cases top : plugin.metadata.get? "UsdUtilsPipeline" with
  | none =>
      rw [top] at sets
      refine Or.inl ⟨by rw [declarations, top], fun fault misdeclares => ?_⟩
      rcases misdeclares.above_entries missing with ⟨_, found, _⟩ | ⟨_, found⟩
      · cases top.symm.trans found
      · cases sets.symm.trans found
  | some pipeline =>
      rw [top, Option.bind_some] at sets
      have present := (valueAt?_pipeline plugin).trans top
      cases dictionary : pipeline.asDictionary? with
      | none =>
          exact Or.inr ⟨_, by simp [declarations, top, dictionary],
            .pipeline present dictionary, rfl⟩
      | some members =>
          rw [dictionary, Option.bind_some] at sets
          cases member : members.get? "RegisteredVariantSets" with
          | none =>
              refine Or.inl ⟨by simp [declarations, top, dictionary, member], ?_⟩
              intro fault misdeclares
              rcases misdeclares.above_entries missing with ⟨_, found, none⟩ | ⟨_, found⟩
              · cases top.symm.trans found
                cases dictionary.symm.trans none
              · cases (sets.trans member).symm.trans found
          | some value =>
              have held := sets.trans member
              have noDictionary : value.asDictionary? = none := by
                rwa [sets?, held, Option.bind_some] at missing
              exact Or.inr ⟨_, by simp [declarations, top, dictionary, member, noDictionary],
                .sets held noDictionary, rfl⟩

theorem mem_entries_iff {sets : Json.Dictionary} (held : plugin.sets? = some sets)
    {entry : String × Json} : entry ∈ sets.entries ↔
      plugin.valueAt? ["UsdUtilsPipeline", "RegisteredVariantSets", entry.1] = some entry.2 := by
  rw [valueAt?_entry, held, Option.bind_some, OrderedMap.get?_eq_some_iff]

theorem readEntry_mem_declarations {name : String} {value : Json}
    (found : plugin.valueAt? ["UsdUtilsPipeline", "RegisteredVariantSets", name] = some value) :
    plugin.readEntry (name, value) ∈ plugin.declarations := by
  obtain ⟨sets, held, _⟩ :=
    Option.bind_eq_some_iff.mp ((valueAt?_entry plugin name).symm.trans found)
  rw [declarations_of_sets held]
  exact List.mem_map_of_mem ((mem_entries_iff held).mpr found)

theorem cases_of_mem_declarations {result : Except DeclarationFault VariantSet}
    (member : result ∈ plugin.declarations) :
    (∃ set, result = .ok set ∧ plugin.Declares set) ∨
      ∃ fault, result = .error fault ∧ plugin.Misdeclares fault := by
  cases held : plugin.sets? with
  | none =>
      rcases declarations_of_no_sets held with ⟨nothing, _⟩ | ⟨fault, only, misdeclares, _⟩
      · simp [nothing] at member
      · exact Or.inr ⟨fault, by simpa [only] using member, misdeclares⟩
  | some sets =>
      rw [declarations_of_sets held] at member
      obtain ⟨⟨name, value⟩, entry, rfl⟩ := List.mem_map.mp member
      rcases readEntry_cases ((mem_entries_iff held).mp entry) with
        ⟨policy, accepted, declares⟩ | ⟨fault, refused, misdeclares⟩
      · exact Or.inl ⟨_, accepted, declares⟩
      · exact Or.inr ⟨fault, refused, misdeclares⟩

theorem mem_declarations_ok_iff {set : VariantSet} :
    .ok set ∈ plugin.declarations ↔ plugin.Declares set := by
  constructor
  · intro member
    rcases cases_of_mem_declarations member with ⟨_, same, declares⟩ | ⟨_, impossible, _⟩
    · cases same
      exact declares
    · cases impossible
  · intro declares
    obtain ⟨value, found⟩ := declares.entry
    have read := readEntry_mem_declarations found
    rcases readEntry_cases found with ⟨policy, accepted, same⟩ | ⟨fault, refused, misdeclares⟩
    · rw [accepted, same.unique declares] at read
      exact read
    · exact absurd declares
        (misdeclares.undeclared (variantSet?_of_readEntry refused) set.policy)

theorem mem_declarations_error_iff {fault : DeclarationFault} :
    .error fault ∈ plugin.declarations ↔ plugin.Misdeclares fault := by
  constructor
  · intro member
    rcases cases_of_mem_declarations member with ⟨_, impossible, _⟩ | ⟨_, same, misdeclares⟩
    · cases impossible
    · cases same
      exact misdeclares
  intro misdeclares
  cases named : fault.variantSet? with
  | none =>
      rcases declarations_of_no_sets (misdeclares.sets?_eq_none named) with
        ⟨_, none⟩ | ⟨other, only, misdeclaresOther, unnamed⟩
      · exact absurd misdeclares (none fault)
      · rw [only, misdeclares.unique misdeclaresOther (named.trans unnamed.symm)]
        exact List.mem_singleton_self _
  | some name =>
      obtain ⟨value, found⟩ := misdeclares.entry_of_variantSet? named
      have read := readEntry_mem_declarations found
      rcases readEntry_cases found with ⟨policy, _, declares⟩ | ⟨other, refused, misdeclaresOther⟩
      · exact absurd declares (misdeclares.undeclared named policy)
      · have same := named.trans (variantSet?_of_readEntry refused).symm
        rwa [refused, ← misdeclares.unique misdeclaresOther same] at read

def faults (plugin : Plugin) : List DeclarationFault :=
  plugin.declarations.filterMap DeclarationFault.ofResult?

theorem mem_faults_iff {fault : DeclarationFault} :
    fault ∈ plugin.faults ↔ plugin.Misdeclares fault := by
  rw [← mem_declarations_error_iff, faults, List.mem_filterMap]
  simp only [DeclarationFault.ofResult?_eq_some_iff, exists_eq_right]

theorem faults_ascending (plugin : Plugin) : plugin.faults.Pairwise fun earlier later =>
    compare earlier.variantSet? later.variantSet? = .lt := by
  cases held : plugin.sets? with
  | none =>
      rcases declarations_of_no_sets held with ⟨nothing, _⟩ | ⟨_, only, _⟩
      · simp [faults, nothing]
      · simp [faults, only, DeclarationFault.ofResult?]
  | some sets =>
      rw [faults, declarations_of_sets held, List.pairwise_filterMap, List.pairwise_map]
      refine sets.ascending.imp fun {first second} below earlier read later readLater => ?_
      rw [DeclarationFault.ofResult?_eq_some_iff] at read readLater
      rw [variantSet?_of_readEntry read, variantSet?_of_readEntry readLater]
      exact below

/-- The faults of a plugin: all there are, in the order of the entries that they are about. -/
structure Accounts (plugin : Plugin) (faults : List DeclarationFault) : Prop where
  mem_iff : ∀ fault, fault ∈ faults ↔ plugin.Misdeclares fault
  ascending : faults.Pairwise fun earlier later =>
    compare earlier.variantSet? later.variantSet? = .lt
  entries : ∀ name value,
    plugin.valueAt? ["UsdUtilsPipeline", "RegisteredVariantSets", name] = some value →
    ((∃ fault ∈ faults, fault.variantSet? = some name) ↔
      ∀ policy, ¬ plugin.Declares ⟨name, policy⟩)

theorem accounts_faults (plugin : Plugin) : plugin.Accounts plugin.faults where
  mem_iff _ := mem_faults_iff
  ascending := plugin.faults_ascending
  entries name value found := by
    constructor
    · rintro ⟨fault, member, named⟩
      exact (mem_faults_iff.mp member).undeclared named
    · intro undeclared
      rcases readEntry_cases found with ⟨policy, _, declares⟩ | ⟨fault, refused, misdeclares⟩
      · exact absurd declares (undeclared policy)
      · exact ⟨fault, mem_faults_iff.mpr misdeclares, variantSet?_of_readEntry refused⟩

end Plugin

variable {plugins others : List Plugin}

theorem mem_collectVariantSets {set : VariantSet} :
    set ∈ (collectVariantSets plugins).sets.keys ↔ ∃ plugin ∈ plugins, plugin.Declares set := by
  have toOption (result : Except DeclarationFault VariantSet) :
      result.toOption = some set ↔ result = .ok set := by
    cases result <;> simp [Except.toOption]
  rw [collectVariantSets, VariantSets.ofList, OrderedMap.mem_keys_ofList, List.map_map]
  simp [toOption, Plugin.mem_declarations_ok_iff]

theorem collectVariantSets_perm (permuted : plugins.Perm others) :
    (collectVariantSets others).sets = (collectVariantSets plugins).sets := by
  refine OrderedMap.ext_keys fun set => ?_
  rw [mem_collectVariantSets, mem_collectVariantSets]
  simp only [permuted.mem_iff]

theorem faults_collectVariantSets (plugins : List Plugin) :
    (collectVariantSets plugins).faults = plugins.flatMap Plugin.faults :=
  List.filterMap_flatMap

/-- Collected are exactly the sets that some plugin declares, whatever the order of the plugins and
whatever else they say. Reported are, plugin by plugin and in key order, exactly the faults of the
plugins' declarations: each names its plugin, and its entry if it is about one, and an entry is at
fault exactly if it declares no set. -/
theorem collectVariantSets_exact (plugins : List Plugin) :
    (∀ set, set ∈ (collectVariantSets plugins).sets.keys ↔
      ∃ plugin ∈ plugins, plugin.Declares set) ∧
    (∀ others, plugins.Perm others →
      (collectVariantSets others).sets = (collectVariantSets plugins).sets) ∧
    ∃ accounts, List.Forall₂ Plugin.Accounts plugins accounts ∧
      (collectVariantSets plugins).faults = accounts.flatten ∧
      ∀ fault ∈ accounts.flatten, ∃ message, fault.report =
        .noted .error message (("plugin", .text fault.plugin) ::
          fault.variantSet?.toList.map fun name => ("variant_set", .text name)) := by
  refine ⟨fun _ => mem_collectVariantSets, fun _ => collectVariantSets_perm,
    plugins.map Plugin.faults, ?_, ?_, fun fault _ => fault.report_names⟩
  · rw [List.forall₂_map_right_iff, List.forall₂_same]
    exact fun plugin _ => plugin.accounts_faults
  · rw [faults_collectVariantSets, List.flatMap_def]

theorem collectVariantSets_exact_conflict :
    let declaring (name : String) (policy : SelectionPolicy) : Plugin :=
      ⟨name, .ofList [("UsdUtilsPipeline", .object [("RegisteredVariantSets", .object [
        ("lod", .object [("selectionExportPolicy", policy.toJson)]), ("paint", .object [])])])]⟩
    let broken : Plugin := ⟨"broken", .ofList [("UsdUtilsPipeline", .null)]⟩
    let plugins := [broken, declaring "kit" .always, declaring "set" .never]
    plugins.Perm plugins.reverse ∧
      (collectVariantSets plugins.reverse).sets = (collectVariantSets plugins).sets ∧
      (collectVariantSets plugins).sets.keys = [⟨"lod", .never⟩, ⟨"lod", .always⟩] ∧
      (∃ plugin ∈ plugins, plugin.Declares ⟨"lod", .never⟩) ∧
      ∃ accounts, List.Forall₂ Plugin.Accounts plugins accounts ∧
        accounts.flatten = [.pipelineNotDictionary "broken", .noPolicy "kit" "paint",
          .noPolicy "set" "paint"] := by
  intro declaring broken plugins
  obtain ⟨collected, unordered, accounts, accounted, told, _⟩ := collectVariantSets_exact plugins
  have permuted : plugins.Perm plugins.reverse := plugins.reverse_perm.symm
  have keys : (collectVariantSets plugins).sets.keys = [⟨"lod", .never⟩, ⟨"lod", .always⟩] := by
    decide +kernel
  have declared := (collected ⟨"lod", .never⟩).mp (by rw [keys]; decide)
  refine ⟨permuted, unordered _ permuted, keys, declared, accounts, accounted, ?_⟩
  rw [← told]
  decide +kernel

end SceneGraph
