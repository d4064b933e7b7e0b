import Mathlib.Data.List.Induction
import PipelineCache.Cache.Teardown
import PipelineCache.Proofs.Store.Hold

/-! What operations do to the entry under one key of one store: most leave it alone, and the others
set it, take it away, or change it in its place. -/
namespace PipelineCache
variable {κ α ρ : Type}

inductive Touch (α : Type) where
  | set (v : α)
  | remove
  | edit (change : α → α)

namespace Touch

def apply : Touch α → Option α → Option α
  | set v, _ => some v
  | remove, _ => none
  | edit change, entry => entry.map change

/-- What is left of an entry by an operation that may touch it. -/
def after : Option (Touch α) → Option α → Option α
  | none, entry => entry
  | some t, entry => t.apply entry

/-- A touch of one key, as it concerns another. -/
def under [DecidableEq κ] (key : κ) (t : Touch α) (k : κ) : Option (Touch α) :=
  if key = k then some t else none

theorem after_under [DecidableEq κ] (key : κ) (t : Touch α) (k : κ) (entry : Option α) :
    after (under key t k) entry = if key = k then t.apply entry else entry := by
  rw [under]
  split <;> rfl

/-- What some touches come to: nothing where no set follows the last removal, and else what was set
last with the later edits in their order. -/
inductive Settles : List (Touch α) → Option α → Prop
  | untouched (edits : List (α → α)) : Settles (edits.map .edit) none
  | removed (before : List (Touch α)) (edits : List (α → α)) :
      Settles (before ++ .remove :: edits.map .edit) none
  | set (before : List (Touch α)) (v : α) (edits : List (α → α)) :
      Settles (before ++ .set v :: edits.map .edit)
        (some (edits.foldl (fun v change => change v) v))

def applyAll (touches : List (Touch α)) (entry : Option α) : Option α :=
  touches.foldl (fun entry t => t.apply entry) entry

theorem applyAll_edits_none (edits : List (α → α)) : applyAll (edits.map .edit) none = none := by
  induction edits with
  | nil => rfl
  | cons change edits ih => exact ih

theorem applyAll_edits_some (edits : List (α → α)) (v : α) :
    applyAll (edits.map .edit) (some v) = some (edits.foldl (fun v change => change v) v) := by
  induction edits generalizing v with
  | nil => rfl
  | cons change edits ih => exact ih (change v)

theorem Settles.snoc {touches : List (Touch α)} {entry : Option α} (h : Settles touches entry)
    (t : Touch α) : Settles (touches ++ [t]) (t.apply entry) := by
  cases t with
  | set v => exact .set touches v []
  | remove => exact .removed touches []
  | edit change =>
    cases h with
    | untouched edits => simpa [apply] using Settles.untouched (edits ++ [change])
    | removed before edits => simpa [apply] using Settles.removed before (edits ++ [change])
    | set before v edits => simpa [apply] using Settles.set before v (edits ++ [change])

theorem settles_applyAll (touches : List (Touch α)) : Settles touches (applyAll touches none) := by
  induction touches using List.reverseRecOn with
  | nil => exact .untouched []
  | append_singleton touches t ih =>
    rw [applyAll, List.foldl_append]
    exact ih.snoc t

theorem Settles.eq_applyAll {touches : List (Touch α)} {entry : Option α}
    (h : Settles touches entry) : entry = applyAll touches none := by
  cases h with
  | untouched edits => exact (applyAll_edits_none edits).symm
  | removed before edits =>
    rw [applyAll, List.foldl_append]
    exact (applyAll_edits_none edits).symm
  | set before v edits =>
    rw [applyAll, List.foldl_append]
    exact (applyAll_edits_some edits v).symm

end Touch

namespace Store
variable [DecidableEq κ]

def Op.touch? (k : κ) : Op κ α → Option (Touch α)
  | .insert j v => Touch.under j (.set v) k
  | .erase j => Touch.under j .remove k
  | .clear => some .remove
  | _ => none

theorem get?_perform (s : Store κ α) (op : Op κ α) (k : κ) :
    (s.perform .none op).state.table.get? k =
      Touch.after (op.touch? k) (s.table.get? k) := by
  cases op with
  | insert j v =>
    simp only [perform, Outcome.map, insert, hold_eq, Crashes.none, Op.touch?, Touch.under]
    by_cases h : j = k <;> simp [h, Touch.after, Touch.apply]
  | erase j =>
    simp only [perform, Outcome.map, erase, hold_eq, Op.touch?, Touch.under]
    by_cases h : j = k <;> simp [h, Touch.after, Touch.apply]
  | clear => rfl
  | get? j =>
    simp only [perform, Outcome.map, Store.get?, peek, hold_eq, Op.touch?]
    cases (s.table.get? j).any Crashes.none.copying <;> rfl
  | snapshot =>
    simp only [perform, Outcome.map, snapshot, peek, hold_eq, Op.touch?]
    cases s.table.values.any Crashes.none.copying <;> rfl
  | _ => rfl

end Store

/-- A touch of one shelf's entries as one of any shelf's. -/
def Shelf.only (shelf : Shelf) (touch? : shelf.Key → Option (Touch shelf.Record)) (s : Shelf)
    (k : s.Key) : Option (Touch s.Record) :=
  if h : shelf = s then (h ▸ touch? : s.Key → Option (Touch s.Record)) k else none

theorem Shelf.only_self (s : Shelf) (touch? : s.Key → Option (Touch s.Record)) (k : s.Key) :
    s.only touch? s k = touch? k :=
  dif_pos rfl

namespace Cache

def Op.touch? (s : Shelf) (k : s.Key) : Op → Option (Touch s.Record)
  | .on shelf op => shelf.only (fun k => op.touch? k) s k
  | .fileDocument d => Shelf.documents.only (Touch.under d.uri (.set d)) s k
  | .fileContext c => Shelf.contexts.only (Touch.under c.name (.set c)) s k
  | .fileProject p => Shelf.projects.only (Touch.under p.slug (.set p)) s k
  | .noteImage name found => Shelf.images.only (Touch.under name (.set (.made found))) s k
  | .addContextVariable key name =>
    Shelf.contexts.only
      (Touch.under key (.edit fun c => { c with vars := c.vars.insert name })) s k
  | .addProjectVariable key name =>
    Shelf.projects.only
      (Touch.under key (.edit fun p => { p with vars := p.vars.insert name })) s k
  | .attach id i =>
    Shelf.orbs.only (Touch.under id (.edit fun o => { o with interface := some i })) s k
  | .describe _ => none

/-- The entry under a key of one of the stores. -/
def stored? (c : Cache) (s : Shelf) (k : s.Key) : Option s.Record := (c.store s).table.get? k

theorem answer_get? (c : Cache) (s : Shelf) (k : s.Key) :
    (c.perform (.on s (.get? k))).answer = some (.on s (.found (c.stored? s k))) := by
  simp only [perform, Outcome.map, on, Store.perform, Store.get?, Store.peek, Store.hold_eq, stored?]
  cases (c.store s).table.get? k <;> rfl

theorem stored?_on (c : Cache) {shelf : Shelf} {o : Outcome (Store shelf.Key shelf.Record) ρ}
    {touch? : shelf.Key → Option (Touch shelf.Record)}
    (h : ∀ k, o.state.table.get? k = Touch.after (touch? k) (c.stored? shelf k)) (s : Shelf)
    (k : s.Key) :
    (c.on shelf o).state.stored? s k = Touch.after (shelf.only touch? s k) (c.stored? s k) := by
  by_cases hs : shelf = s
  · subst hs
    simp only [Shelf.only, dite_true, stored?, on, store_put]
    exact h k
  · rw [Shelf.only, dif_neg hs, stored?, on, store_put_of_ne c hs]
    rfl

/-- Apart from what it reports, an attachment is an edit of an orb's entry. -/
theorem attach_eq_update (c : Cache) (id : String) (i : OrbInterface) :
    let u := c.orbs.update id fun orb => some (i, { orb with interface := some i })
    (c.attach id i).state = (c.on .orbs u).state ∧
      (c.attach id i).answer = u.answer.map (c.orbs.orMissing id) := by
  simp only [attach, on, Store.update, Store.hold_eq]
  cases c.orbs.table.get? id <;> exact ⟨rfl, rfl⟩

theorem stored?_perform (c : Cache) (op : Op) (s : Shelf) (k : s.Key) :
    (c.perform op).state.stored? s k = Touch.after (op.touch? s k) (c.stored? s k) := by
  cases op with
  | on shelf op => exact c.stored?_on ((c.store shelf).get?_perform op) s k
  | fileDocument d => exact c.stored?_on (c.documents.get?_perform (.insert d.uri d)) s k
  | fileContext v => exact c.stored?_on (c.contexts.get?_perform (.insert v.name v)) s k
  | fileProject v => exact c.stored?_on (c.projects.get?_perform (.insert v.slug v)) s k
  | noteImage name found =>
    exact c.stored?_on (c.images.get?_perform (.insert name (.made found))) s k
  | addContextVariable key name =>
    refine c.stored?_on (fun k => ?_) s k
    rw [Store.get?_addVariable, Touch.under]
    split <;> rfl
  | addProjectVariable key name =>
    refine c.stored?_on (fun k => ?_) s k
    rw [Store.get?_addVariable, Touch.under]
    split <;> rfl
  | attach id i =>
    simp only [perform, Outcome.map, (c.attach_eq_update id i).1]
    refine c.stored?_on (fun k => ?_) s k
    rw [Store.get?_update, Touch.under]
    split <;> rfl
  | describe wide => cases s <;> rfl

theorem after_edit_of_none {c : Cache} (shelf : Shelf) (key : shelf.Key)
    (change : shelf.Record → shelf.Record) (h : c.stored? shelf key = none) (s : Shelf)
    (k : s.Key) :
    Touch.after (shelf.only (Touch.under key (.edit change)) s k) (c.stored? s k) =
      c.stored? s k := by
  by_cases hs : shelf = s
  · subst hs
    simp only [Shelf.only, dite_true, Touch.under]
    split
    · next hk => simp [Touch.after, Touch.apply, ← hk, h]
    · rfl
  · rw [Shelf.only, dif_neg hs]
    rfl

/-- An operation that misses an entry changes none. -/
theorem stored?_perform_of_missing {c : Cache} {op : Op} {m : MissingEntry}
    (h : (c.perform op).answer = some (.missing m)) (s : Shelf) (k : s.Key) :
    (c.perform op).state.stored? s k = c.stored? s k := by
  rw [stored?_perform]
  cases op with
  | addContextVariable key name =>
    cases hv : c.contexts.table.get? key with
    | none => exact after_edit_of_none .contexts key _ hv s k
    | some v =>
      simp [perform, Outcome.map, on, Store.answer_addVariable, hv, Store.orMissing,
        Answer.orMissing] at h
  | addProjectVariable key name =>
    cases hv : c.projects.table.get? key with
    | none => exact after_edit_of_none .projects key _ hv s k
    | some v =>
      simp [perform, Outcome.map, on, Store.answer_addVariable, hv, Store.orMissing,
        Answer.orMissing] at h
  | attach id i =>
    cases hv : c.orbs.table.get? id with
    | none => exact after_edit_of_none .orbs id _ hv s k
    | some v =>
      simp [perform, Outcome.map, c.attach_eq_update id i, Store.answer_update, hv, Store.orMissing,
        Answer.orMissing] at h
  | _ => simp [perform, Outcome.map] at h

end Cache
end PipelineCache
