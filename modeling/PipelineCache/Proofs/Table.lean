import Mathlib.Data.List.Nodup
import PipelineCache.Table

/-! The keys of a table. None comes twice where none came twice before, and then looking a key up,
finding it among the keys and finding its entry are the same. -/
namespace PipelineCache.Table
variable {κ α : Type}

theorem size_eq_length_keys (t : Table κ α) : t.size = t.keys.length := by
  rw [size, keys, List.length_map]

variable [DecidableEq κ] {t : Table κ α}

theorem isSome_get?_iff {k : κ} : (t.get? k).isSome ↔ k ∈ t.keys := by
  obtain ⟨es⟩ := t
  simp only [get?, keys]
  induction es with
  | nil => simp [lookup]
  | cons e es ih =>
    rw [List.map_cons, List.mem_cons, lookup]
    by_cases he : e.1 = k
    · simp [he]
    · simp [he, Ne.symm he, ih]

/-- Replacing the value of a key that is there keeps the keys, in their order. -/
theorem keys_insert_of_get? {k : κ} {v : α} (h : t.get? k = some v) (v' : α) :
    (t.insert k v').keys = t.keys := by
  rw [keys_insert, if_pos (isSome_get?_iff.1 (Option.isSome_of_eq_some h))]

theorem nodup_keys_insert (h : t.keys.Nodup) (k : κ) (v : α) : (t.insert k v).keys.Nodup := by
  rw [keys_insert]
  split
  · exact h
  · next hk => exact h.append (List.nodup_singleton k) (List.disjoint_singleton.2 hk)

theorem nodup_keys_erase (h : t.keys.Nodup) (k : κ) : (t.erase k).keys.Nodup := by
  rw [keys_erase]
  exact h.filter _

/-- Where no key comes twice, looking up is membership. -/
theorem mem_entries_iff (h : t.keys.Nodup) {k : κ} {v : α} :
    (k, v) ∈ t.entries ↔ t.get? k = some v := by
  obtain ⟨es⟩ := t
  simp only [get?, keys] at h ⊢
  induction es with
  | nil => simp [lookup]
  | cons e es ih =>
    obtain ⟨he, hes⟩ := List.nodup_cons.1 h
    rw [List.mem_cons, ih hes, lookup]
    by_cases hk : e.1 = k
    · subst hk
      have hn : lookup e.1 es = none := by
        rw [← Option.not_isSome_iff_eq_none]
        exact fun hs => he (isSome_get?_iff (t := ⟨es⟩).1 hs)
      simp [hn, Prod.ext_iff, eq_comm]
    · simp [hk, Prod.ext_iff, Ne.symm hk]

theorem size_insert (k : κ) (v : α) :
    (t.insert k v).size = if (t.get? k).isSome then t.size else t.size + 1 := by
  simp only [size_eq_length_keys, keys_insert, isSome_get?_iff]
  split
  · rfl
  · simp

theorem size_erase (h : t.keys.Nodup) (k : κ) :
    (t.erase k).size = if (t.get? k).isSome then t.size - 1 else t.size := by
  simp only [size_eq_length_keys, keys_erase, isSome_get?_iff]
  have he : t.keys.filter (· ≠ k) = t.keys.erase k := by
    rw [h.erase_eq_filter k]
    exact List.filter_congr fun x _ => by by_cases hx : x = k <;> simp [hx]
  rw [he, List.length_erase]

end PipelineCache.Table
