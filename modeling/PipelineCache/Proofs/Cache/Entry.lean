import PipelineCache.Proofs.Store.Views
import PipelineCache.Proofs.Cache.Kept

/-! Operations that change one entry in its place. Where the entry is missing they say so and leave
the whole cache as it was; else they change that entry and nothing besides, and no key comes or goes.
-/
namespace PipelineCache
variable {κ α ρ : Type}

namespace Store

/-- A store that bears its name and whose lock no crash has marked. -/
def IsClear (name : String) (s : Store κ α) : Prop := s.name = name ∧ s.poisoned = false

variable [DecidableEq κ] {name : String} {s s' : Store κ α}

theorem IsClear.served (h : s.IsClear name) (hs : s.Served s') : s'.IsClear name := by
  obtain rfl | ⟨ρ, r, ha, rfl⟩ := hs
  · exact h
  · refine ⟨name_serve.trans h.1, ?_⟩
    rw [poisoned_serve, h.2, Option.isNone_eq_false_iff.2 ha, ite_self]

theorem state_update_of_none (h : s.IsClear name) {k : κ} (hk : s.table.get? k = none)
    (change : α → Option (ρ × α)) : (s.update k change).state = s := by
  rw [Store.update, hold_eq, hk]
  obtain ⟨n, t, p⟩ := s
  obtain ⟨rfl, rfl⟩ := h
  rfl

end Store

namespace Cache

theorem put_store (c : Cache) (s : Shelf) : c.put s (c.store s) = c := by
  cases s <;> rfl

/-- All stores bear their titles and no lock is marked. -/
def IsClear (c : Cache) : Prop := ∀ s : Shelf, (c.store s).IsClear s.title

theorem isClear_kept : Kept IsClear :=
  kept_of_served (fun _ => ⟨rfl, rfl⟩) fun _ _ _ hs h => h.served hs

/-- An operation on the entry under one key either finds none, says so and changes nothing at all, or
gives its answer and changes that entry alone, in its place. -/
structure EditsEntry (c : Cache) (op : Op) (s : Shelf) (key : s.Key) (answer : s.Record → Answer)
    (change : s.Record → s.Record) : Prop where
  missing_iff : (c.perform op).answer = some (.missing ⟨s.title, s.keyText key⟩) ↔
    c.stored? s key = none
  unchanged : c.stored? s key = none → (c.perform op).state = c
  answered : ∀ v, c.stored? s key = some v → (c.perform op).answer = some (answer v)
  changed : ∀ v, c.stored? s key = some v → (c.perform op).state.stored? s key = some (change v)
  others : ∀ s' k', (⟨s', k'⟩ : Sigma Shelf.Key) ≠ ⟨s, key⟩ →
    (c.perform op).state.stored? s' k' = c.stored? s' k'
  keys : ∀ s', ((c.perform op).state.store s').table.keys = (c.store s').table.keys
  sizes : (c.perform op).state.sizes = c.sizes

theorem sizes_eq_of_keys {c c' : Cache}
    (h : ∀ s, (c.store s).table.keys = (c'.store s).table.keys) : c.sizes = c'.sizes := by
  have hs (s : Shelf) : (c.store s).table.size = (c'.store s).table.size := by
    rw [Table.size_eq_length_keys, Table.size_eq_length_keys, h s]
  simp only [sizes, List.cons.injEq, and_true]
  exact ⟨hs .documents, hs .orbs, hs .images, hs .contexts, hs .projects⟩

/-- Changing an entry in its place brings no key and takes none away, in any of the stores. -/
theorem keys_put_update (c : Cache) (s : Shelf) (k : s.Key) (change : s.Record → Option (ρ × s.Record))
    (s' : Shelf) : ((c.put s ((c.store s).update k change).state).store s').table.keys =
      (c.store s').table.keys := by
  by_cases he : s = s'
  · subst he
    rw [store_put, Store.keys_table_update]
  · rw [store_put_of_ne c he]

/-- What is asked for here of an update of one store holds of the operation that is that update. -/
theorem editsEntry_of_update {c : Cache} (hc : c.IsClear) {op : Op} {s : Shelf} {key : s.Key}
    {answer : s.Record → Answer} {change : s.Record → s.Record} {f : s.Record → ρ}
    (hanswer : (c.perform op).answer =
      some ((c.stored? s key).elim (.missing ⟨(c.store s).name, s.keyText key⟩) answer))
    (hstate : (c.perform op).state =
      c.put s ((c.store s).update key fun v => some (f v, change v)).state)
    (hne : ∀ v m, answer v ≠ .missing m) : c.EditsEntry op s key answer change := by
  have hkeys := hstate ▸ c.keys_put_update s key fun v => some (f v, change v)
  refine ⟨?_, ?_, ?_, ?_, ?_, hkeys, sizes_eq_of_keys hkeys⟩
  · rw [hanswer, (hc s).1]
    cases c.stored? s key with
    | none => simp
    | some v => simp [hne]
  · intro hk
    rw [hstate, Store.state_update_of_none (hc s) hk, put_store]
  · intro v hv
    rw [hanswer, hv]
    rfl
  · intro v hv
    rw [hstate, stored?, store_put, Store.get?_update, if_pos rfl, ← stored?, hv]
    rfl
  · intro s' k' hn
    rw [hstate, stored?, stored?]
    by_cases he : s = s'
    · subst he
      have hk : key ≠ k' := by
        rintro rfl
        exact hn rfl
      rw [store_put, Store.get?_update, if_neg hk]
    · rw [store_put_of_ne c he]

section
variable {c : Cache} (hc : c.IsClear)
include hc

theorem editsEntry_attach (id : String) (i : OrbInterface) :
    c.EditsEntry (.attach id i) .orbs id (fun _ => .interface i)
      fun orb => { orb with interface := some i } := by
  obtain ⟨hs, ha⟩ := c.attach_eq_update id i
  refine editsEntry_of_update hc (f := fun _ => i) ?_ hs fun _ _ => nofun
  change (c.attach id i).answer.map (Answer.orMissing Answer.interface) = _
  rw [ha]
  simp only [Store.answer_update]
  change _ = some ((c.orbs.table.get? id).elim _ _)
  cases c.orbs.table.get? id <;> rfl

theorem editsEntry_addContextVariable (key name : String) :
    c.EditsEntry (.addContextVariable key name) .contexts key
      (fun v => .on .contexts (.flag !v.vars.contains name))
      fun v => { v with vars := v.vars.insert name } := by
  refine editsEntry_of_update hc (f := fun v : Context => !v.vars.contains name) ?_ ?_
    fun _ _ => nofun
  · change (c.contexts.addVariable .none key name).answer.map _ = _
    rw [Store.answer_addVariable]
    change _ = some ((c.contexts.table.get? key).elim _ _)
    cases c.contexts.table.get? key <;> rfl
  · simp only [perform, Outcome.map, on, Store.addVariable_eq_update]
    rfl

theorem editsEntry_addProjectVariable (key name : String) :
    c.EditsEntry (.addProjectVariable key name) .projects key
      (fun v => .on .projects (.flag !v.vars.contains name))
      fun v => { v with vars := v.vars.insert name } := by
  refine editsEntry_of_update hc (f := fun v : Project => !v.vars.contains name) ?_ ?_
    fun _ _ => nofun
  · change (c.projects.addVariable .none key name).answer.map _ = _
    rw [Store.answer_addVariable]
    change _ = some ((c.projects.table.get? key).elim _ _)
    cases c.projects.table.get? key <;> rfl
  · simp only [perform, Outcome.map, on, Store.addVariable_eq_update]
    rfl

end
end Cache

namespace World

/-- What a world is asked to do leaves no mark on a lock. -/
def IsClear (w : World) : Prop := ∀ c ∈ w.caches, c.IsClear

theorem isClear_initial : initial.IsClear := by
  intro c hc
  rw [List.mem_singleton.1 hc]
  exact Cache.isClear_kept.empty

theorem isClear_run {w : World} (hw : w.IsClear) (steps : List Step) : (w.run steps).1.IsClear :=
  keeps_run Cache.isClear_kept hw steps

/-- Attaching an interface and adding a variable, in every cache of every world that some steps lead
to: they miss exactly the keys that are absent and then leave all stores alone, and otherwise they
change nothing but the interface of that orb, which counts as read from then on, or the variables of
that record. -/
theorem edits_all_or_nothing (steps : List Step) {c : Cache} (hc : c ∈ (initial.run steps).1.caches) :
    (∀ id i,
      c.EditsEntry (.attach id i) .orbs id (fun _ => .interface i)
        (fun orb => { orb with interface := some i }) ∧
      ∀ orb, c.stored? .orbs id = some orb →
        ∃ orb', (c.perform (.attach id i)).state.stored? .orbs id = some orb' ∧ orb'.isRead) ∧
    (∀ key name, c.EditsEntry (.addContextVariable key name) .contexts key
      (fun v => .on .contexts (.flag !v.vars.contains name))
      fun v => { v with vars := v.vars.insert name }) ∧
    ∀ key name, c.EditsEntry (.addProjectVariable key name) .projects key
      (fun v => .on .projects (.flag !v.vars.contains name))
      fun v => { v with vars := v.vars.insert name } := by
  have hclear : c.IsClear := isClear_run isClear_initial steps c hc
  refine ⟨fun id i => ?_, Cache.editsEntry_addContextVariable hclear,
    Cache.editsEntry_addProjectVariable hclear⟩
  have h := Cache.editsEntry_attach hclear id i
  exact ⟨h, fun orb ho => ⟨_, h.changed orb ho, rfl⟩⟩

/-- A context under a key that is not its name, and an orb that has not been read. -/
def aliased : List Step :=
  [.on 0 (.on .contexts (.insert "alias" (.named "deploy"))),
    .on 0 (.on .orbs (.insert "o" (.unread "acme/o" .empty)))]

theorem edits_all_or_nothing_aliased :
    ∃ c ∈ (initial.run aliased).1.caches,
      (c.perform (.addContextVariable "deploy" "A")).answer =
        some (.missing ⟨"contexts", "deploy"⟩) ∧
      (c.perform (.addContextVariable "deploy" "A")).state = c ∧
      (c.perform (.addContextVariable "alias" "A")).state.stored? .contexts "alias" =
        some (.extend (.named "deploy") ["A"]) ∧
      (c.perform (.attach "o" .empty)).answer = some (.interface .empty) ∧
      (c.perform (.attach "o" .empty)).state.stored? .orbs "o" =
        some ⟨"acme/o", .empty, some .empty⟩ := by
  have hc : (initial.run aliased).1.caches[0] ∈ (initial.run aliased).1.caches :=
    List.getElem_mem _
  obtain ⟨horb, hcontext, -⟩ := edits_all_or_nothing aliased hc
  have hmissing : (initial.run aliased).1.caches[0].stored? .contexts "deploy" = none := rfl
  exact ⟨_, hc, (hcontext "deploy" "A").missing_iff.2 hmissing,
    (hcontext "deploy" "A").unchanged hmissing, (hcontext "alias" "A").changed _ rfl,
    (horb "o" .empty).1.answered _ rfl, (horb "o" .empty).1.changed _ rfl⟩

end World
end PipelineCache
