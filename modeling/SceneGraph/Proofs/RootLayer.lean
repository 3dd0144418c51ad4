import Mathlib.Data.List.Forall2
import SceneGraph.RootLayer

/-!
The vote on the up axis. Although the count ends at the first vote against, its result depends on
which votes there are and not on their order; only what is reported depends on where it ends.
-/

namespace SceneGraph

namespace RootPrim

/-- What a prim says about the up axis. Only defined prims have a say. -/
def upAxis? (prim : RootPrim) : Option Json :=
  if prim.specifier = .define then prim.customData.get? "zUp" else none

def isAgainst (prim : RootPrim) : Bool :=
  match prim.upAxis? with
  | some (.bool false) => true
  | _ => false

def isUnclear (prim : RootPrim) : Bool :=
  match prim.upAxis? with
  | none | some (.bool _) => false
  | some _ => true

theorem upAxis?_eq_some_iff {prim : RootPrim} {value : Json} : prim.upAxis? = some value ↔
    prim.specifier = .define ∧ prim.customData.get? "zUp" = some value := by
  rw [upAxis?, Option.ite_none_right_eq_some]

inductive Vote (prim : RootPrim) : Prop
  | none : prim.upAxis? = none → Vote prim
  | pro : prim.upAxis? = some (.bool true) → Vote prim
  | against : prim.upAxis? = some (.bool false) → Vote prim
  | unclear {value} : prim.upAxis? = some value → (∀ flag, value ≠ .bool flag) → Vote prim

theorem vote (prim : RootPrim) : Vote prim := by
  cases said : prim.upAxis? with
  | none => exact .none said
  | some value =>
      cases value with
      | bool flag =>
          cases flag with
          | true => exact .pro said
          | false => exact .against said
      | _ => exact .unclear said (by simp)

theorem isAgainst_iff {prim : RootPrim} :
    prim.isAgainst = true ↔ prim.upAxis? = some (.bool false) := by
  rw [isAgainst]
  split
  next said => simp [said]
  next other => simpa using other

theorem isUnclear_iff {prim : RootPrim} : prim.isUnclear = true ↔
    ∃ value, prim.upAxis? = some value ∧ ∀ flag, value ≠ .bool flag := by
  rw [isUnclear]
  split
  next said => simp [said]
  next flag said => simp [said]
  next value other said => exact ⟨fun _ => ⟨value, said, other⟩, fun _ => rfl⟩

end RootPrim

namespace RootLayer

open RootPrim

variable {layer : String} {voted : Bool} {prim : RootPrim} {prims : List RootPrim}

theorem countUpVotes_none (said : prim.upAxis? = none) :
    countUpVotes layer voted (prim :: prims) = countUpVotes layer voted prims := by
  rw [upAxis?] at said
  split at said
  next defined => simp [countUpVotes, defined, said]
  next undefined => simp [countUpVotes, undefined]

theorem countUpVotes_pro (said : prim.upAxis? = some (.bool true)) :
    countUpVotes layer voted (prim :: prims) = countUpVotes layer true prims := by
  obtain ⟨defined, found⟩ := upAxis?_eq_some_iff.mp said
  simp [countUpVotes, defined, found]

theorem countUpVotes_against (said : prim.upAxis? = some (.bool false)) :
    countUpVotes layer voted (prim :: prims) = (false, []) := by
  obtain ⟨defined, found⟩ := upAxis?_eq_some_iff.mp said
  simp [countUpVotes, defined, found]

theorem countUpVotes_unclear {value : Json} (said : prim.upAxis? = some value)
    (unclear : ∀ flag, value ≠ .bool flag) :
    countUpVotes layer voted (prim :: prims) = ((countUpVotes layer voted prims).1,
      ⟨layer, prim.name, value⟩ :: (countUpVotes layer voted prims).2) := by
  obtain ⟨defined, found⟩ := upAxis?_eq_some_iff.mp said
  simp only [countUpVotes, defined, found, ne_eq, not_true_eq_false, if_false]
  split
  next equal => cases equal
  next equal => exact absurd (Option.some.inj equal) (unclear true)
  next equal => exact absurd (Option.some.inj equal) (unclear false)
  next equal => cases equal; rfl

theorem countUpVotes_iff : (countUpVotes layer voted prims).1 = true ↔
    (voted = true ∨ ∃ prim ∈ prims, prim.upAxis? = some (.bool true)) ∧
      ∀ prim ∈ prims, prim.upAxis? ≠ some (.bool false) := by
  induction prims generalizing voted with
  | nil => simp [countUpVotes]
  | cons prim rest ih =>
      simp only [List.mem_cons, exists_eq_or_imp, forall_eq_or_imp]
      cases prim.vote with
      | none said => simp [countUpVotes_none said, ih, said]
      | pro said => simp [countUpVotes_pro said, ih, said]
      | against said => simp [countUpVotes_against said, said]
      | unclear said unclear => simp [countUpVotes_unclear said unclear, ih, said, unclear]

theorem countUpVotes_reports : List.Forall₂
    (fun prim unclear => ∃ value, prim.upAxis? = some value ∧ (∀ flag, value ≠ .bool flag) ∧
      unclear = ⟨layer, prim.name, value⟩)
    ((prims.takeWhile fun prim => !prim.isAgainst).filter RootPrim.isUnclear)
    (countUpVotes layer voted prims).2 := by
  induction prims generalizing voted with
  | nil => exact .nil
  | cons prim rest ih =>
      cases prim.vote with
      | none said => simpa [countUpVotes_none said, isAgainst, isUnclear, said] using ih
      | pro said => simpa [countUpVotes_pro said, isAgainst, isUnclear, said] using ih
      | against said => simp [countUpVotes_against said, isAgainst, said]
      | @unclear value said unclear =>
          have counted : prim.isUnclear = true := isUnclear_iff.mpr ⟨value, said, unclear⟩
          have goesOn : prim.isAgainst = false := by
            rw [Bool.eq_false_iff, ne_eq, isAgainst_iff, said]
            exact fun same => unclear false (Option.some.inj same)
          rw [countUpVotes_unclear said unclear, List.takeWhile_cons_of_pos (by simp [goesOn]),
            List.filter_cons_of_pos counted]
          exact .cons ⟨value, said, unclear, rfl⟩ ih

theorem isZUp_iff (layer : RootLayer) : layer.isZUp.1 = true ↔
    (∃ prim ∈ layer.rootPrims, prim.specifier = .define ∧
      prim.customData.get? "zUp" = some (.bool true)) ∧
    ∀ prim ∈ layer.rootPrims, prim.specifier = .define →
      prim.customData.get? "zUp" ≠ some (.bool false) := by
  rw [isZUp, countUpVotes_iff]
  simp only [Bool.false_eq_true, false_or, ne_eq, upAxis?_eq_some_iff, not_and]

theorem isZUp_congr {layer other : RootLayer}
    (permuted : (layer.rootPrims.filter (·.specifier = .define)).Perm
      (other.rootPrims.filter (·.specifier = .define))) : other.isZUp.1 = layer.isZUp.1 := by
  have same (prim : RootPrim) : prim ∈ other.rootPrims ∧ prim.specifier = .define ↔
      prim ∈ layer.rootPrims ∧ prim.specifier = .define := by
    simpa using permuted.symm.mem_iff (a := prim)
  rw [Bool.eq_iff_iff, isZUp_iff, isZUp_iff]
  simp only [← and_assoc, ← and_imp, same]

/-- The cameras' z axis points up exactly if some defined prim votes for it and none against, so
neither the order of the prims nor those that are not defined matter. Warned of are, in order, the
defined prims before the first vote against whose `zUp` is no boolean. -/
theorem isZUp_exact (layer : RootLayer) :
    (layer.isZUp.1 = true ↔
      (∃ prim ∈ layer.rootPrims, prim.specifier = .define ∧
        prim.customData.get? "zUp" = some (.bool true)) ∧
      ∀ prim ∈ layer.rootPrims, prim.specifier = .define →
        prim.customData.get? "zUp" ≠ some (.bool false)) ∧
    (∀ other : RootLayer,
      (layer.rootPrims.filter (·.specifier = .define)).Perm
        (other.rootPrims.filter (·.specifier = .define)) →
      other.isZUp.1 = layer.isZUp.1) ∧
    List.Forall₂
      (fun prim report => ∃ value, prim.upAxis? = some value ∧ (∀ flag, value ≠ .bool flag) ∧
        report = .noted .warn "found non-boolean 'zUp' customData"
          [("layer", .text layer.identifier), ("prim", .text prim.name),
            ("value", .text value.render)])
      ((layer.rootPrims.takeWhile fun prim => !prim.isAgainst).filter RootPrim.isUnclear)
      (layer.isZUp.2.map UnclearUpAxis.report) := by
  refine ⟨layer.isZUp_iff, fun _ => isZUp_congr, ?_⟩
  rw [List.forall₂_map_right_iff]
  refine List.Forall₂.imp ?_ countUpVotes_reports
  rintro prim unclear ⟨value, said, noFlag, rfl⟩
  exact ⟨value, said, noFlag, rfl⟩

theorem isZUp_exact_shot :
    let prim (name : String) (specifier : Specifier) (zUp : Json) : RootPrim :=
      ⟨name, specifier, .ofList [("zUp", zUp)]⟩
    let layer : RootLayer := ⟨"shot", "", none, [prim "rig" .abstract (.bool false),
      prim "set" .define .null, prim "cam" .define (.bool true), prim "sky" .over .null]⟩
    let other : RootLayer := ⟨"take", "", none, [prim "cam" .define (.bool true),
      prim "set" .define .null]⟩
    (layer.rootPrims.filter (·.specifier = .define)).Perm
        (other.rootPrims.filter (·.specifier = .define)) ∧
      other.isZUp.1 = layer.isZUp.1 ∧ layer.isZUp.1 = true ∧
      layer.isZUp.2.map UnclearUpAxis.report =
        [.noted .warn "found non-boolean 'zUp' customData"
          [("layer", .text "shot"), ("prim", .text "set"), ("value", .text "null")]] := by
  intro prim layer other
  obtain ⟨_, unordered, _⟩ := isZUp_exact layer
  have permuted : (layer.rootPrims.filter (·.specifier = .define)).Perm
      (other.rootPrims.filter (·.specifier = .define)) := .swap _ _ []
  exact ⟨permuted, unordered other permuted, rfl, rfl⟩

end RootLayer

end SceneGraph
