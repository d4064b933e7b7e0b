import PipelineCache.Proofs.Table
import PipelineCache.Proofs.Store.Recovery

/-! What a store tells of itself. After any requests no key comes twice, and so all that is told of
the entries and of their number belongs to one map. -/
namespace PipelineCache
variable {κ α ρ : Type}

namespace Store

theorem answer_peek (s : Store κ α) (body : Table κ α → Option ρ) :
    (s.peek body).answer = body s.table := by
  rw [peek, hold_eq, Option.map_map]
  exact Option.map_id'

theorem table_peek (s : Store κ α) (body : Table κ α → Option ρ) :
    (s.peek body).state.table = s.table := by
  rw [peek, hold_eq]
  cases body s.table <;> rfl

theorem nodup_keys_named (name : String) : (named name : Store κ α).table.keys.Nodup :=
  List.nodup_nil

variable [DecidableEq κ]

/-- The store holds `n` entries, which make up one map, and tells nothing else, unless a copy
crashes. What sets a new key raises their number by one, and what removes a key that is there lowers
it by one. -/
structure ShowsMap (crashes : Crashes α) (s : Store κ α) (m : κ → Option α) (n : Nat) : Prop where
  get? : ∀ k, (s.get? crashes k).answer = if (m k).any crashes.copying then none else some (m k)
  contains : ∀ k, (s.contains k).answer = some (m k).isSome
  keys : ∃ ks, s.keys.answer = some ks ∧ ks.Nodup ∧ ks.length = n ∧ ∀ k, k ∈ ks ↔ (m k).isSome
  snapshot : ∃ t : Table κ α,
    (s.snapshot crashes).answer = (if t.values.any crashes.copying then none else some t) ∧
      t.keys.Nodup ∧ ∀ k v, (k, v) ∈ t.entries ↔ m k = some v
  size : s.size.answer = some n
  isEmpty : s.isEmpty.answer = some (decide (n = 0))
  size_insert : ∀ k v, (s.insert crashes k v).state.size.answer =
    some (if crashes.copying v || (m k).isSome then n else n + 1)
  size_erase : ∀ k, (s.erase k).state.size.answer = some (if (m k).isSome then n - 1 else n)
  size_clear : s.clear.state.size.answer = some 0
  size_update : ∀ (ρ : Type) k (change : α → Option (ρ × α)),
    (s.update k change).state.size.answer = some n

theorem table_update (s : Store κ α) (k : κ) (change : α → Option (ρ × α)) :
    (s.update k change).state.table = s.table ∨
      ∃ v v', s.table.get? k = some v ∧ (s.update k change).state.table = s.table.insert k v' := by
  rw [update, hold_eq]
  cases hk : s.table.get? k with
  | none => exact .inl rfl
  | some v =>
    cases hc : change v with
    | none => exact .inl (by simp [hc])
    | some x => exact .inr ⟨v, x.2, rfl, by simp [hc]⟩

theorem keys_table_update (s : Store κ α) (k : κ) (change : α → Option (ρ × α)) :
    (s.update k change).state.table.keys = s.table.keys := by
  obtain h | ⟨v, v', hv, h⟩ := s.table_update k change
  · rw [h]
  · rw [h, Table.keys_insert_of_get? hv]

theorem table_insert (crashes : Crashes α) (s : Store κ α) (k : κ) (v : α) :
    (s.insert crashes k v).state.table =
      if crashes.copying v then s.table else s.table.insert k v := by
  rw [insert, hold_eq]
  cases h : crashes.copying v <;> simp

theorem showsMap_of_nodup (crashes : Crashes α) {s : Store κ α} (h : s.table.keys.Nodup) :
    s.ShowsMap crashes s.table.get? s.table.size where
  get? k := s.answer_peek _
  contains k := s.answer_peek _
  keys := ⟨s.table.keys, s.answer_peek _, h, s.table.size_eq_length_keys.symm,
    fun k => Table.isSome_get?_iff.symm⟩
  snapshot := ⟨s.table, s.answer_peek _, h, fun k v => Table.mem_entries_iff h⟩
  size := s.answer_peek _
  isEmpty := by
    rw [isEmpty, answer_peek, Table.isEmpty, Table.size, Option.some_inj, Bool.eq_iff_iff]
    simp
  size_insert k v := by
    rw [Store.size, answer_peek, table_insert]
    cases crashes.copying v with
    | true => rfl
    | false => exact congrArg some (Table.size_insert k v)
  size_erase k := (answer_peek _ _).trans (congrArg some (Table.size_erase h k))
  size_clear := answer_peek _ _
  size_update ρ k change := by
    rw [Store.size, answer_peek, Table.size_eq_length_keys, keys_table_update,
      Table.size_eq_length_keys]

/-- No request makes a key come twice. -/
theorem nodup_keys_serve (crashes : Crashes α) {s : Store κ α} (h : s.table.keys.Nodup)
    (r : Request κ α ρ) : (s.serve crashes r).state.table.keys.Nodup := by
  cases r with
  | update k change =>
    change (s.update k change).state.table.keys.Nodup
    rwa [keys_table_update]
  | op op =>
    cases op with
    | insert k v =>
      change (s.insert crashes k v).state.table.keys.Nodup
      rw [table_insert]
      split
      · exact h
      · exact Table.nodup_keys_insert h k v
    | erase k => exact Table.nodup_keys_erase h k
    | clear => exact List.nodup_nil
    | get? k =>
      change (s.get? crashes k).state.table.keys.Nodup
      rwa [Store.get?, table_peek]
    | snapshot =>
      change (s.snapshot crashes).state.table.keys.Nodup
      rwa [snapshot, table_peek]
    | _ => exact h

theorem nodup_keys_serveAll (crashes : Crashes α) {s : Store κ α} (h : s.table.keys.Nodup)
    (rs : List (Request κ α ρ)) : (s.serveAll crashes rs).table.keys.Nodup := by
  induction rs generalizing s with
  | nil => exact h
  | cons r rs ih => exact ih (nodup_keys_serve crashes h r)

end Store
end PipelineCache
