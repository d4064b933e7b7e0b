import PipelineCache.Cache.Basic

/-! What one hold of a store's lock does, whatever is done under it, and the operations that change
an entry in its place as one operation. -/
namespace PipelineCache
variable {κ α ρ ρ' : Type}

namespace Store

section
variable (s : Store κ α) (body : Table κ α → Option (ρ × Table κ α))

theorem hold_eq : s.hold body =
    ⟨⟨s.name, (body s.table).elim s.table Prod.snd, (body s.table).isNone⟩,
      (body s.table).map Prod.fst, s.lock.2⟩ := by
  simp only [hold, lock]
  cases body s.table <;> rfl

@[simp] theorem name_hold : (s.hold body).state.name = s.name := by rw [hold_eq]

@[simp] theorem poisoned_hold : (s.hold body).state.poisoned = (s.hold body).answer.isNone := by
  simp [hold_eq]

@[simp] theorem events_hold : (s.hold body).events = s.lock.2 := by rw [hold_eq]

theorem table_hold_of_crash (h : (s.hold body).answer = none) :
    (s.hold body).state.table = s.table := by
  rw [hold_eq] at h ⊢
  rw [Option.map_eq_none_iff.1 h]
  rfl

theorem map_hold (f : ρ → ρ') :
    (s.hold body).map f = s.hold fun t => (body t).map (Prod.map f id) := by
  simp only [Outcome.map, hold_eq]
  cases body s.table <;> rfl

end

/-- Two stores that differ in the mark on the lock alone. -/
def Agree (s s' : Store κ α) : Prop := s.name = s'.name ∧ s.table = s'.table

theorem agree_hold {s s' : Store κ α} (h : s.Agree s')
    (body : Table κ α → Option (ρ × Table κ α)) :
    (s.hold body).answer = (s'.hold body).answer ∧ (s.hold body).state = (s'.hold body).state := by
  rw [hold_eq, hold_eq, h.1, h.2]
  exact ⟨rfl, rfl⟩

/-- All an action does is one hold of the lock, the same for all stores of a name. -/
def IsHold (name : String) (act : Store κ α → Outcome (Store κ α) ρ) : Prop :=
  ∃ body : Table κ α → Option (ρ × Table κ α), ∀ s, s.name = name → act s = s.hold body

theorem isHold_hold (name : String) (body : Table κ α → Option (ρ × Table κ α)) :
    IsHold name fun s => s.hold body := ⟨body, fun _ _ => rfl⟩

theorem IsHold.map {name : String} {act : Store κ α → Outcome (Store κ α) ρ}
    (h : IsHold name act) (f : ρ → ρ') : IsHold name fun s => (act s).map f := by
  obtain ⟨body, h⟩ := h
  refine ⟨fun t => (body t).map (Prod.map f id), fun s hs => ?_⟩
  rw [← map_hold, ← h s hs]

section
variable [DecidableEq κ]

/-- Changes the entry under a key in its place and answers, unless there is none or the change
crashes. -/
def update (s : Store κ α) (k : κ) (change : α → Option (ρ × α)) :
    Outcome (Store κ α) (Option ρ) :=
  s.hold fun t =>
    match t.get? k with
    | none => some (none, t)
    | some v => (change v).map fun (answer, v') => (some answer, t.insert k v')

variable (s : Store κ α) (k : κ) (answer : α → ρ) (change : α → α)

theorem answer_update :
    (s.update k fun v => some (answer v, change v)).answer = some ((s.table.get? k).map answer) := by
  rw [update, hold_eq]
  cases s.table.get? k <;> rfl

theorem get?_update (j : κ) :
    (s.update k fun v => some (answer v, change v)).state.table.get? j =
      if k = j then (s.table.get? j).map change else s.table.get? j := by
  rw [update, hold_eq]
  by_cases h : k = j
  · subst h
    cases hv : s.table.get? k <;> simp [hv]
  · cases hv : s.table.get? k <;> simp [h]

end

/-- What an update of an entry that is missing comes to. -/
def orMissing (s : Store String α) (k : String) : Option ρ → Except MissingEntry ρ
  | none => .error ⟨s.name, k⟩
  | some answer => .ok answer

theorem addVariable_eq_update [Owner α] (crashes : Crashes α) (s : Store String α)
    (k name : String) :
    s.addVariable crashes k name =
      (s.update k fun v =>
        if crashes.editing v then none
        else some (!(Owner.vars v).contains name,
          Owner.setVars v ((Owner.vars v).insert name))).map (s.orMissing k) := by
  rw [update, map_hold, addVariable, hold_eq, hold_eq]
  cases s.table.get? k with
  | none => rfl
  | some v => cases h : crashes.editing v <;> simp [h, orMissing]

section
variable [Owner α] (s : Store String α) (key name : String)

theorem answer_addVariable : (s.addVariable .none key name).answer =
    some (s.orMissing key ((s.table.get? key).map fun v => !(Owner.vars v).contains name)) := by
  rw [addVariable_eq_update]
  exact congrArg (Option.map _) (s.answer_update key _ _)

theorem get?_addVariable (k : String) : (s.addVariable .none key name).state.table.get? k =
    if key = k then (s.table.get? k).map fun v => Owner.setVars v ((Owner.vars v).insert name)
    else s.table.get? k := by
  rw [addVariable_eq_update]
  exact s.get?_update key _ _ k

end

end Store
end PipelineCache
