import PipelineCache.World
import PipelineCache.Proofs.Cache.Touch
import PipelineCache.Proofs.Store.Recovery

/-! What histories cannot take away. Whatever is done to a cache, each of its stores serves one
request or none; so what requests keep of a store, all stores of all caches keep. -/
namespace PipelineCache
variable {κ α ρ : Type} [DecidableEq κ]

namespace Store

/-- The store as it was, or behind one request that did not crash. -/
def Served (s s' : Store κ α) : Prop :=
  s' = s ∨ ∃ (ρ : Type) (r : Request κ α ρ),
    (s.serve .none r).answer.isSome ∧ s' = (s.serve .none r).state

theorem served_perform (s : Store κ α) (op : Op κ α) : s.Served (s.perform .none op).state := by
  have hn : ((.op op : Request κ α Unit).crashesOn .none s.table) = false := by
    cases op <;> simp [Request.crashesOn, Crashes.none]
  refine .inr ⟨Unit, .op op, ?_, rfl⟩
  rw [Option.isSome_iff_ne_none]
  intro hc
  rw [answer_serve_eq_none.1 hc] at hn
  cases hn

theorem served_update (s : Store κ α) (k : κ) (answer : α → ρ) (change : α → α) :
    s.Served (s.update k fun v => some (answer v, change v)).state := by
  refine .inr ⟨ρ, .update k fun v => some (answer v, change v), ?_, rfl⟩
  change ((s.update k fun v => some (answer v, change v)).answer.map _).isSome
  rw [answer_update]
  rfl

end Store

namespace Cache

theorem served_put (c : Cache) (s : Shelf) {st : Store s.Key s.Record}
    (h : (c.store s).Served st) (s' : Shelf) : (c.store s').Served ((c.put s st).store s') := by
  by_cases he : s = s'
  · subst he
    rwa [store_put]
  · rw [store_put_of_ne c he]
    exact .inl rfl

theorem served_perform (c : Cache) (op : Op) (s : Shelf) :
    (c.store s).Served ((c.perform op).state.store s) := by
  cases op with
  | on s' op => exact c.served_put s' ((c.store s').served_perform op) s
  | fileDocument d => exact c.served_put .documents (c.documents.served_perform (.insert d.uri d)) s
  | fileContext v => exact c.served_put .contexts (c.contexts.served_perform (.insert v.name v)) s
  | fileProject v => exact c.served_put .projects (c.projects.served_perform (.insert v.slug v)) s
  | noteImage name found =>
    exact c.served_put .images (c.images.served_perform (.insert name (.made found))) s
  | addContextVariable key name =>
    simp only [perform, Outcome.map, on, Store.addVariable_eq_update]
    exact c.served_put .contexts (c.contexts.served_update key _ _) s
  | addProjectVariable key name =>
    simp only [perform, Outcome.map, on, Store.addVariable_eq_update]
    exact c.served_put .projects (c.projects.served_update key _ _) s
  | attach id i =>
    simp only [perform, Outcome.map, (c.attach_eq_update id i).1]
    exact c.served_put .orbs (c.orbs.served_update id _ _) s
  | describe wide =>
    have h := (c.store s).served_perform (.describe wide)
    cases s <;> exact h

theorem served_sweep (c : Cache) (fs : Files) (order : List Orb) (s : Shelf) :
    (c.store s).Served ((c.sweep fs order).state.1.store s) := by
  cases s with
  | documents => exact c.documents.served_perform .size
  | orbs => exact c.orbs.served_perform .size
  | _ => exact .inl rfl

theorem served_teardown (c : Cache) (fs : Files) (order : List Orb) (s : Shelf) :
    (c.store s).Served ((c.teardown fs order).state.1.store s) := by
  cases s with
  | documents => exact c.documents.served_perform .size
  | orbs => exact c.orbs.served_perform .clear
  | _ => exact .inl rfl

/-- An empty cache has the property, and nothing that is done to a cache takes it away. -/
structure Kept (P : Cache → Prop) : Prop where
  empty : P .empty
  perform : ∀ {c : Cache}, P c → ∀ op, P (c.perform op).state
  sweep : ∀ {c : Cache}, P c → ∀ fs order, P (c.sweep fs order).state.1
  teardown : ∀ {c : Cache}, P c → ∀ fs order, P (c.teardown fs order).state.1

/-- What a new store has and requests keep, the stores of a cache keep. -/
theorem kept_of_served {P : (s : Shelf) → Store s.Key s.Record → Prop}
    (hn : ∀ s, P s (.named s.title))
    (hs : ∀ s (st st' : Store s.Key s.Record), st.Served st' → P s st → P s st') :
    Kept fun c => ∀ s, P s (c.store s) where
  empty s := by
    have h := hn s
    cases s <;> exact h
  perform {c} h op s := hs s _ _ (c.served_perform op s) (h s)
  sweep {c} h fs order s := hs s _ _ (c.served_sweep fs order s) (h s)
  teardown {c} h fs order s := hs s _ _ (c.served_teardown fs order s) (h s)

end Cache

namespace World
variable {P : Cache → Prop} {w : World}

theorem keeps_withCache (hw : ∀ c ∈ w.caches, P c) (h : Nat)
    {f : Cache → Outcome (Cache × Files) Reply} (hf : ∀ c, P c → P (f c).state.1) :
    ∀ c ∈ (w.withCache h f).1.caches, P c := by
  unfold withCache setCache
  split
  · exact hw
  · next c hc =>
    obtain ⟨i, hi, hc⟩ := Option.bind_eq_some_iff.1 hc
    have hp := hf c (hw c (List.mem_of_getElem? hc))
    simp only [hi]
    intro d hd
    obtain hd | rfl := List.mem_or_eq_of_mem_set hd
    · exact hw d hd
    · exact hp

theorem keeps_step (hp : Cache.Kept P) (hw : ∀ c ∈ w.caches, P c) (st : Step) :
    ∀ c ∈ (w.step st).1.caches, P c := by
  have hfiles (files : Option Files) : ∀ c ∈ (w.prepare files).1.caches, P c := by
    cases files <;> exact hw
  cases st with
  | on h op => exact keeps_withCache hw h fun c hc => hp.perform hc op
  | sweep h => exact keeps_withCache hw h fun c hc => hp.sweep hc w.files c.orbs.table.values
  | teardown h => exact keeps_withCache hw h fun c hc => hp.teardown hc w.files c.orbs.table.values
  | newCache =>
    intro c hc
    obtain hc | hc := List.mem_append.1 hc
    · exact hw c hc
    · rw [List.mem_singleton.1 hc]
      exact hp.empty
  | share h =>
    simp only [step]
    split <;> exact hw
  | status p => exact hw
  | _ => exact hfiles _

theorem keeps_run (hp : Cache.Kept P) (hw : ∀ c ∈ w.caches, P c) (steps : List Step) :
    ∀ c ∈ (w.run steps).1.caches, P c := by
  induction steps generalizing w with
  | nil => exact hw
  | cons st steps ih => exact ih (keeps_step hp hw st)

/-- What is never taken away, every cache has after any steps. -/
theorem kept_run (hp : Cache.Kept P) (steps : List Step) :
    ∀ c ∈ (initial.run steps).1.caches, P c := by
  apply keeps_run hp
  intro c hc
  rw [List.mem_singleton.1 hc]
  exact hp.empty

end World
end PipelineCache
