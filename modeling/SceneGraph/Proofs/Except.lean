/-!
Steps that can fail: how a chain of them ends is read off how its steps end.
-/

namespace SceneGraph

@[simp] theorem ok_bind {ε α β : Type} (value : α) (next : α → Except ε β) :
    Except.ok value >>= next = next value := rfl

@[simp] theorem error_bind {ε α β : Type} (fault : ε) (next : α → Except ε β) :
    (Except.error fault : Except ε α) >>= next = .error fault := rfl

theorem bind_eq_ok {ε α β : Type} {first : Except ε α} {next : α → Except ε β} {value : β} :
    first >>= next = .ok value ↔ ∃ middle, first = .ok middle ∧ next middle = .ok value := by
  cases first <;> simp [bind, Except.bind]

theorem bind_eq_error {ε α β : Type} {first : Except ε α} {next : α → Except ε β} {fault : ε} :
    first >>= next = .error fault ↔
      first = .error fault ∨ ∃ middle, first = .ok middle ∧ next middle = .error fault := by
  cases first <;> simp [bind, Except.bind]

theorem map_eq_ok {ε α β : Type} {first : Except ε α} {convert : α → β} {value : β} :
    first.map convert = .ok value ↔ ∃ held, first = .ok held ∧ convert held = value := by
  cases first <;> simp [Except.map]

theorem mapError_eq_ok {ε δ α : Type} {first : Except ε α} {convert : ε → δ} {value : α} :
    first.mapError convert = .ok value ↔ first = .ok value := by
  cases first with
  | error cause =>
      change Except.error (convert cause) = .ok value ↔ _
      simp
  | ok held =>
      change Except.ok held = .ok value ↔ _
      simp

theorem mapError_eq_error {ε δ α : Type} {first : Except ε α} {convert : ε → δ} {fault : δ} :
    first.mapError convert = .error fault ↔
      ∃ cause, first = .error cause ∧ convert cause = fault := by
  cases first with
  | error cause =>
      change Except.error (convert cause) = .error fault ↔ _
      simp
  | ok held =>
      change Except.ok held = .error fault ↔ _
      simp

theorem foldlM_congr {ε α β : Type} {left right : β → α → Except ε β} {steps : List α}
    (same : ∀ step ∈ steps, ∀ state, right state step = left state step) (start : β) :
    steps.foldlM right start = steps.foldlM left start := by
  induction steps generalizing start with
  | nil => rfl
  | cons step rest ih =>
      have later := ih fun other member => same other (by simp [member])
      rw [List.foldlM_cons, List.foldlM_cons, same step (by simp), funext later]

theorem foldlM_eq_error_after {ε α β : Type} {next : β → α → Except ε β} {steps : List α}
    {start : β} {fault : ε} (failed : steps.foldlM next start = .error fault) :
    ∃ before step after state, steps = before ++ step :: after ∧
      before.foldlM next start = .ok state ∧ next state step = .error fault := by
  induction steps generalizing start with
  | nil => cases failed
  | cons step rest ih =>
      rw [List.foldlM_cons] at failed
      rcases bind_eq_error.mp failed with here | ⟨middle, passed, later⟩
      · exact ⟨[], step, rest, start, rfl, rfl, here⟩
      · obtain ⟨before, other, after, state, rfl, reached, refused⟩ := ih later
        refine ⟨step :: before, other, after, state, rfl, ?_, refused⟩
        rw [List.foldlM_cons, passed, ok_bind, reached]

theorem foldlM_eq_error {ε α β : Type} {next : β → α → Except ε β} {steps : List α} {start : β}
    {fault : ε} (failed : steps.foldlM next start = .error fault) :
    ∃ step ∈ steps, ∃ state, next state step = .error fault := by
  obtain ⟨before, step, after, state, rfl, _, refused⟩ := foldlM_eq_error_after failed
  exact ⟨step, by simp, state, refused⟩

theorem foldlM_eq_ok_step {ε α β : Type} {next : β → α → Except ε β} {steps : List α}
    {start last : β} (ended : steps.foldlM next start = .ok last) {step : α}
    (member : step ∈ steps) : ∃ state later, next state step = .ok later := by
  obtain ⟨before, after, rfl⟩ := List.append_of_mem member
  rw [List.foldlM_append, bind_eq_ok] at ended
  obtain ⟨state, _, ended⟩ := ended
  rw [List.foldlM_cons, bind_eq_ok] at ended
  obtain ⟨later, passed, _⟩ := ended
  exact ⟨state, later, passed⟩

theorem foldlM_eq_ok_related {ε α β : Type} {next : β → α → Except ε β} (related : β → β → Prop)
    (refl : ∀ state, related state state)
    (trans : ∀ state middle last, related state middle → related middle last → related state last)
    {steps : List α}
    (each : ∀ step ∈ steps, ∀ state later, next state step = .ok later → related state later)
    {start last : β} (ended : steps.foldlM next start = .ok last) : related start last := by
  induction steps generalizing start with
  | nil =>
      cases ended
      exact refl _
  | cons step rest ih =>
      rw [List.foldlM_cons, bind_eq_ok] at ended
      obtain ⟨middle, passed, ended⟩ := ended
      exact trans _ _ _ (each step (by simp) _ _ passed)
        (ih (fun other member => each other (by simp [member])) ended)

end SceneGraph
