import Mathlib.Data.List.Induction
import PipelineCache.Proofs.Store.Hold

/-! Taking a lock over from a holder that crashed. A crash leaves the entries alone and marks the
lock; the next holder reports it once and works as if nothing had crashed. -/
namespace PipelineCache
variable {κ α ρ : Type} [DecidableEq κ]

namespace Store

/-- What may be asked of a store: one of its operations, or a change of an entry in its place, such
as adding a variable, which has an answer of its own. -/
inductive Request (κ α ρ : Type) where
  | op (op : Op κ α)
  | update (key : κ) (change : α → Option (ρ × α))

namespace Request

/-- All but the name stands behind the lock. -/
def takesLock : Request κ α ρ → Bool
  | .op .name => false
  | _ => true

/-- Whether a request copies a record that crashes while it is copied, or makes a change that
crashes. -/
def crashesOn (crashes : Crashes α) (t : Table κ α) : Request κ α ρ → Bool
  | .op (.insert _ v) => crashes.copying v
  | .op (.get? k) => (t.get? k).any crashes.copying
  | .op .snapshot => t.values.any crashes.copying
  | .update k change => (t.get? k).any fun v => (change v).isNone
  | _ => false

end Request

section
variable (crashes : Crashes α) (s : Store κ α)

def serve (s : Store κ α) : Request κ α ρ → Outcome (Store κ α) (Answer κ α ⊕ Option ρ)
  | .op op => (s.perform crashes op).map .inl
  | .update k change => (s.update k change).map .inr

/-- The store after some requests. -/
def serveAll (s : Store κ α) : List (Request κ α ρ) → Store κ α
  | [] => s
  | r :: rs => serveAll (s.serve crashes r).state rs

/-- The requests that do not crash when they are served in turn. -/
def completed (s : Store κ α) : List (Request κ α ρ) → List (Request κ α ρ)
  | [] => []
  | r :: rs =>
    let o := s.serve crashes r
    if o.answer.isSome then r :: completed o.state rs else completed o.state rs

/-- The last of some requests that took the lock crashed. -/
def LastHolderCrashed (rs : List (Request κ α ρ)) : Prop :=
  ∃ before r after, rs = before ++ r :: after ∧ r.takesLock ∧
    (∀ q ∈ after, ¬ q.takesLock) ∧ ((s.serveAll crashes before).serve crashes r).answer = none

end

theorem isHold_serve (crashes : Crashes α) {r : Request κ α ρ} (h : r.takesLock) (name : String) :
    IsHold name fun s => s.serve crashes r := by
  cases r with
  | update k change => exact (isHold_hold name _).map _
  | op op =>
    cases op with
    | name => cases h
    | describe wide =>
      refine IsHold.map (IsHold.map ?_ _) _
      refine ⟨fun t => some (Text.outline wide "Store"
        [("name", Text.quote Text.isHidden name), ("len", toString t.size)], t), ?_⟩
      rintro s rfl
      rfl
    | _ => exact ((isHold_hold name _).map _).map _

section
variable {crashes : Crashes α} {s s' : Store κ α} {r : Request κ α ρ}

theorem serve_of_not_takesLock (h : ¬ r.takesLock) :
    s.serve crashes r = ⟨s, some (.inl (.text s.name)), []⟩ := by
  cases r with
  | update k change => exact absurd rfl h
  | op op =>
    cases op with
    | name => rfl
    | _ => exact absurd rfl h

/-- A request that takes the lock is one hold of it, whether the lock is marked or not. -/
theorem serve_eq_hold (crashes : Crashes α) (s : Store κ α) (h : r.takesLock) :
    ∃ body : Table κ α → Option ((Answer κ α ⊕ Option ρ) × Table κ α),
      s.serve crashes r = s.hold body ∧ ∀ s', s.Agree s' → s'.serve crashes r = s'.hold body := by
  obtain ⟨body, hb⟩ := isHold_serve crashes h s.name
  exact ⟨body, hb s rfl, fun s' hs => hb s' hs.1.symm⟩

theorem name_serve : (s.serve crashes r).state.name = s.name := by
  by_cases h : r.takesLock
  · obtain ⟨body, hb, -⟩ := serve_eq_hold crashes s h
    rw [hb, name_hold]
  · rw [serve_of_not_takesLock h]

theorem poisoned_serve : (s.serve crashes r).state.poisoned =
    if r.takesLock then (s.serve crashes r).answer.isNone else s.poisoned := by
  by_cases h : r.takesLock
  · obtain ⟨body, hb, -⟩ := serve_eq_hold crashes s h
    rw [hb, poisoned_hold, if_pos h]
  · rw [serve_of_not_takesLock h, if_neg h]

theorem events_serve : (s.serve crashes r).events =
    if r.takesLock && s.poisoned then [.recovered s.name s.table.size] else [] := by
  by_cases h : r.takesLock
  · obtain ⟨body, hb, -⟩ := serve_eq_hold crashes s h
    rw [hb, events_hold, h, Bool.true_and]
    rfl
  · rw [serve_of_not_takesLock h]
    simp [h]

theorem table_serve_of_crash (h : (s.serve crashes r).answer = none) :
    (s.serve crashes r).state.table = s.table := by
  by_cases hr : r.takesLock
  · obtain ⟨body, hb, -⟩ := serve_eq_hold crashes s hr
    rw [hb] at h ⊢
    exact table_hold_of_crash s body h
  · rw [serve_of_not_takesLock hr]

/-- The mark on the lock has no part in what is answered and left behind. -/
theorem agree_serve (crashes : Crashes α) (r : Request κ α ρ) (h : s.Agree s') :
    (s.serve crashes r).answer = (s'.serve crashes r).answer ∧
      (s.serve crashes r).state.Agree (s'.serve crashes r).state := by
  by_cases hr : r.takesLock
  · obtain ⟨body, hb, hb'⟩ := serve_eq_hold crashes s hr
    rw [hb, hb' s' h]
    obtain ⟨ha, hs⟩ := agree_hold h body
    rw [hs]
    exact ⟨ha, rfl, rfl⟩
  · rw [serve_of_not_takesLock hr, serve_of_not_takesLock hr, h.1]
    exact ⟨rfl, h⟩

theorem answer_serve_eq_none :
    (s.serve crashes r).answer = none ↔ r.crashesOn crashes s.table := by
  cases r with
  | update k change =>
    simp only [serve, update, Outcome.map, hold_eq, Request.crashesOn]
    cases hv : s.table.get? k with
    | none => simp
    | some v => cases hc : change v <;> simp [hc]
  | op op =>
    cases op with
    | insert k v =>
      simp only [serve, perform, insert, Outcome.map, hold_eq, Request.crashesOn]
      cases crashes.copying v <;> simp
    | get? k =>
      simp only [serve, perform, Store.get?, peek, Outcome.map, hold_eq, Request.crashesOn]
      cases (s.table.get? k).any crashes.copying <;> simp
    | snapshot =>
      simp only [serve, perform, snapshot, peek, Outcome.map, hold_eq, Request.crashesOn]
      cases s.table.values.any crashes.copying <;> simp
    | _ => exact iff_of_false (Option.some_ne_none _) Bool.false_ne_true

theorem serveAll_append (s : Store κ α) (rs qs : List (Request κ α ρ)) :
    s.serveAll crashes (rs ++ qs) = (s.serveAll crashes rs).serveAll crashes qs := by
  induction rs generalizing s with
  | nil => rfl
  | cons r rs ih => exact ih (s.serve crashes r).state

theorem lastHolderCrashed_snoc (s : Store κ α) (rs : List (Request κ α ρ)) (r : Request κ α ρ) :
    LastHolderCrashed crashes s (rs ++ [r]) ↔
      if r.takesLock then ((s.serveAll crashes rs).serve crashes r).answer = none
      else LastHolderCrashed crashes s rs := by
  constructor
  · intro ⟨before, q, after, he, hq, hafter, hcrash⟩
    -- `r` is the holder that crashed, or one of those behind it that leave the lock alone.
    obtain rfl | ⟨after, q', rfl⟩ := after.eq_nil_or_concat
    · obtain ⟨rfl, hr⟩ := List.append_inj' he rfl
      obtain rfl := List.singleton_inj.1 hr
      rwa [if_pos hq]
    · rw [List.concat_eq_append, ← List.cons_append, ← List.append_assoc] at he
      obtain ⟨rfl, hr⟩ := List.append_inj' he rfl
      obtain rfl := List.singleton_inj.1 hr
      rw [if_neg (hafter r (by simp))]
      exact ⟨before, q, after, rfl, hq, fun p hp => hafter p (by simp [hp]), hcrash⟩
  · intro h
    split at h
    · next hr => exact ⟨rs, r, [], rfl, hr, by simp, h⟩
    · next hr =>
      obtain ⟨before, q, after, rfl, hq, hafter, hcrash⟩ := h
      refine ⟨before, q, after ++ [r], by simp, hq, fun p hp => ?_, hcrash⟩
      obtain hp | hp := List.mem_append.1 hp
      · exact hafter p hp
      · rwa [List.mem_singleton.1 hp]

/-- The lock is marked just when its last holder crashed. -/
theorem poisoned_serveAll (hs : s.poisoned = false) (rs : List (Request κ α ρ)) :
    (s.serveAll crashes rs).poisoned ↔ LastHolderCrashed crashes s rs := by
  induction rs using List.reverseRecOn with
  | nil =>
    refine iff_of_false (by simp [serveAll, hs]) ?_
    intro ⟨before, q, after, he, _⟩
    simp at he
  | append_singleton rs r ih =>
    rw [lastHolderCrashed_snoc, serveAll_append, serveAll, serveAll, poisoned_serve]
    split
    · exact Option.isNone_iff_eq_none
    · exact ih

/-- Without the requests that crash, a store comes to the same entries and its lock is never
marked. -/
theorem serveAll_completed (h : s.Agree s') (hs : s'.poisoned = false)
    (rs : List (Request κ α ρ)) :
    (s.serveAll crashes rs).Agree (s'.serveAll crashes (completed crashes s rs)) ∧
      (s'.serveAll crashes (completed crashes s rs)).poisoned = false := by
  induction rs generalizing s s' with
  | nil => exact ⟨h, hs⟩
  | cons r rs ih =>
    obtain ⟨ha, hstate⟩ := agree_serve crashes r h
    rw [completed]
    by_cases hr : (s.serve crashes r).answer.isSome
    · rw [if_pos hr]
      refine ih hstate ?_
      rw [poisoned_serve, ← ha]
      split
      · simpa using hr
      · exact hs
    · rw [if_neg hr]
      refine ih ⟨name_serve.trans h.1, ?_⟩ hs
      rw [table_serve_of_crash (by simpa using hr), h.2]

theorem name_serveAll (s : Store κ α) (rs : List (Request κ α ρ)) :
    (s.serveAll crashes rs).name = s.name := by
  induction rs generalizing s with
  | nil => rfl
  | cons r rs ih => exact (ih _).trans name_serve

end

/-- A request crashes on what it copies or changes, and then leaves the entries alone. The next one
that takes the lock reports that once, with the number of entries; otherwise every request answers
and leaves behind what it would have, had the crashed ones never come. -/
theorem next_holder_recovers (crashes : Crashes α) (name : String)
    (before : List (Request κ α ρ)) (r : Request κ α ρ) :
    let new : Store κ α := .named name
    let s := new.serveAll crashes before
    let calm := new.serveAll crashes (completed crashes new before)
    let o := s.serve crashes r
    (o.answer = none ↔ r.crashesOn crashes s.table) ∧
      (o.answer = none → o.state.table = s.table) ∧
      (r.takesLock ∧ LastHolderCrashed crashes new before →
        o.events = [.recovered name s.table.size]) ∧
      (¬ (r.takesLock ∧ LastHolderCrashed crashes new before) → o.events = []) ∧
      o.answer = (calm.serve crashes r).answer ∧
      o.state.table = (calm.serve crashes r).state.table ∧ (calm.serve crashes r).events = [] := by
  intro new s calm o
  have hmark : s.poisoned ↔ LastHolderCrashed crashes new before := poisoned_serveAll rfl before
  have hname : s.name = name := name_serveAll new before
  obtain ⟨hagree, hcalm⟩ : s.Agree calm ∧ calm.poisoned = false :=
    serveAll_completed ⟨rfl, rfl⟩ rfl before
  obtain ⟨hanswer, hstate⟩ := agree_serve crashes r hagree
  refine ⟨answer_serve_eq_none, table_serve_of_crash, ?_, ?_, hanswer, hstate.2, ?_⟩
  · intro ⟨hr, hl⟩
    rw [events_serve, hr, hmark.2 hl, hname]
    rfl
  · intro hn
    rw [events_serve, if_neg]
    rwa [Bool.and_eq_true, hmark]
  · rw [events_serve, hcalm, Bool.and_false]
    rfl

/-- A crash that is reported by a request that crashes again, and that one by the next. -/
example :
    let crashes : Crashes Nat := ⟨fun v => v = 7, fun _ => false, fun _ => false⟩
    let requests : List (Request String Nat Unit) := [.op (.insert "a" 1), .op (.insert "b" 7)]
    let s : Store String Nat := (named "numbers").serveAll crashes requests
    let o := s.serve crashes (.op (.insert "a" 7) : Request String Nat Unit)
    o.events = [.recovered "numbers" 1] ∧ o.answer.isNone ∧
      (o.state.serve crashes (.op .size : Request String Nat Unit)).events =
        [.recovered "numbers" 1] := by
  decide

end Store
end PipelineCache
