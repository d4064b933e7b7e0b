import PipelineCache.Proofs.Cache.Entry

/-! What the stores tell of themselves after any history. All that is told of one store at one time
belongs to one map, and the number of its entries follows from which keys come and go. -/
namespace PipelineCache

namespace Cache

/-- In no store a key comes twice. -/
def HasDistinctKeys (c : Cache) : Prop := ∀ s : Shelf, (c.store s).table.keys.Nodup

theorem hasDistinctKeys_kept : Kept HasDistinctKeys := by
  refine kept_of_served (P := fun _ st => st.table.keys.Nodup)
    (fun s => Store.nodup_keys_named s.title) fun s st st' hs h => ?_
  obtain rfl | ⟨ρ, r, -, rfl⟩ := hs
  · exact h
  · exact Store.nodup_keys_serve .none h r

theorem sizes_addContextVariable (c : Cache) (key name : String) :
    (c.perform (.addContextVariable key name)).state.sizes = c.sizes := by
  simp only [perform, Outcome.map, on, Store.addVariable_eq_update]
  exact sizes_eq_of_keys (c.keys_put_update .contexts key _)

theorem sizes_addProjectVariable (c : Cache) (key name : String) :
    (c.perform (.addProjectVariable key name)).state.sizes = c.sizes := by
  simp only [perform, Outcome.map, on, Store.addVariable_eq_update]
  exact sizes_eq_of_keys (c.keys_put_update .projects key _)

theorem sizes_attach (c : Cache) (id : String) (i : OrbInterface) :
    (c.perform (.attach id i)).state.sizes = c.sizes := by
  simp only [perform, Outcome.map, (c.attach_eq_update id i).1]
  exact sizes_eq_of_keys (c.keys_put_update .orbs id _)

end Cache

namespace World

/-- A store of any kind shows one map after any requests, and so does each store of each cache after
any steps. There a record that is filed is set under its own key, a change in place leaves all sizes
alone, and a teardown empties the orbs' store and no other. -/
theorem views_agree :
    (∀ (κ α ρ : Type) [DecidableEq κ] (crashes : Crashes α) (name : String)
      (history : List (Store.Request κ α ρ)),
      let s := (Store.named name).serveAll crashes history
      s.ShowsMap crashes s.table.get? s.table.size) ∧
    ∀ (steps : List Step), ∀ c ∈ (initial.run steps).1.caches,
      (∀ s, (c.store s).ShowsMap .none (c.stored? s) (c.store s).table.size) ∧
      ((∀ d, (c.perform (.fileDocument d)).state =
          c.put .documents (c.documents.insert .none d.uri d).state) ∧
        (∀ v, (c.perform (.fileContext v)).state =
          c.put .contexts (c.contexts.insert .none v.name v).state) ∧
        (∀ v, (c.perform (.fileProject v)).state =
          c.put .projects (c.projects.insert .none v.slug v).state) ∧
        ∀ name found, (c.perform (.noteImage name found)).state =
          c.put .images (c.images.insert .none name (.made found)).state) ∧
      ((∀ id i, (c.perform (.attach id i)).state.sizes = c.sizes) ∧
        (∀ key name, (c.perform (.addContextVariable key name)).state.sizes = c.sizes) ∧
        ∀ key name, (c.perform (.addProjectVariable key name)).state.sizes = c.sizes) ∧
      ∀ fs order, (c.teardown fs order).state.1.sizes = [c.documents.table.size, 0,
        c.images.table.size, c.contexts.table.size, c.projects.table.size] := by
  constructor
  · intro κ α ρ _ crashes name history s
    have hkeys := Store.nodup_keys_serveAll crashes (Store.nodup_keys_named name) history
    exact Store.showsMap_of_nodup crashes hkeys
  · intro steps c hc
    have hkeys := kept_run Cache.hasDistinctKeys_kept steps c hc
    exact ⟨fun s => Store.showsMap_of_nodup .none (hkeys s),
      ⟨fun _ => rfl, fun _ => rfl, fun _ => rfl, fun _ _ => rfl⟩,
      ⟨c.sizes_attach, c.sizes_addContextVariable, c.sizes_addProjectVariable⟩, fun _ _ => rfl⟩

/-- A context is filed and set again under another key, one is removed, and a variable is added. -/
def crowded : List Step :=
  [.on 0 (.fileContext (.named "deploy")), .on 0 (.on .contexts (.insert "alias" (.named "deploy"))),
    .on 0 (.fileContext (.named "deploy")), .on 0 (.on .contexts (.erase "none")),
    .on 0 (.addContextVariable "alias" "A")]

theorem views_agree_crowded :
    ∃ c ∈ (initial.run crowded).1.caches,
      (c.contexts.get? .none "alias").answer = some (some (.extend (.named "deploy") ["A"])) ∧
      c.contexts.size.answer = some 2 ∧
      (c.contexts.insert .none "deploy" (.named "deploy")).state.size.answer = some 2 ∧
      (c.contexts.insert .none "new" (.named "new")).state.size.answer = some 3 ∧
      (c.contexts.erase "alias").state.size.answer = some 1 ∧
      (c.contexts.erase "new").state.size.answer = some 2 := by
  have hc : (initial.run crowded).1.caches[0] ∈ (initial.run crowded).1.caches :=
    List.getElem_mem _
  obtain ⟨hstores, -⟩ := views_agree.2 crowded _ hc
  have h := hstores .contexts
  exact ⟨_, hc, h.get? "alias", h.size, h.size_insert "deploy" _, h.size_insert "new" _,
    h.size_erase "alias", h.size_erase "new"⟩

end World
end PipelineCache
