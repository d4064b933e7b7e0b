/-! Tables from keys to values, in the order in which the keys came. -/
namespace PipelineCache
variable {κ α : Type}

structure Table (κ α : Type) where
  entries : List (κ × α)

namespace Table

def empty : Table κ α := ⟨[]⟩

def keys (t : Table κ α) : List κ := t.entries.map Prod.fst

def values (t : Table κ α) : List α := t.entries.map Prod.snd

def size (t : Table κ α) : Nat := t.entries.length

def isEmpty (t : Table κ α) : Bool := t.entries.isEmpty

variable [DecidableEq κ]

def lookup (k : κ) : List (κ × α) → Option α
  | [] => none
  | (k', v) :: es => if k' = k then some v else lookup k es

/-- Replaces the value of a key in its place, or adds the key at the end. -/
def put (k : κ) (v : α) : List (κ × α) → List (κ × α)
  | [] => [(k, v)]
  | (k', v') :: es => if k' = k then (k, v) :: es else (k', v') :: put k v es

def get? (t : Table κ α) (k : κ) : Option α := lookup k t.entries

def contains (t : Table κ α) (k : κ) : Bool := (t.get? k).isSome

def insert (t : Table κ α) (k : κ) (v : α) : Table κ α := ⟨put k v t.entries⟩

def erase (t : Table κ α) (k : κ) : Table κ α := ⟨t.entries.filter fun e => e.1 ≠ k⟩

@[simp] theorem get?_empty (k : κ) : (empty : Table κ α).get? k = none := rfl

theorem lookup_put (k j : κ) (v : α) (es : List (κ × α)) :
    lookup j (put k v es) = if k = j then some v else lookup j es := by
  induction es with
  | nil => rfl
  | cons e es ih =>
    obtain ⟨k', v'⟩ := e
    by_cases h : k' = k
    · subst h
      by_cases hj : k' = j <;> simp [put, lookup, hj]
    · by_cases hj : k' = j
      · subst hj
        simp [put, lookup, h, Ne.symm h]
      · simp [put, lookup, h, hj, ih]

theorem mem_values_of_get? {t : Table κ α} {k : κ} {v : α} (h : t.get? k = some v) :
    v ∈ t.values := by
  obtain ⟨es⟩ := t
  simp only [get?, values] at h ⊢
  induction es with
  | nil => cases h
  | cons e es ih =>
    rw [List.map_cons, List.mem_cons]
    by_cases he : e.1 = k
    · rw [lookup, if_pos he, Option.some_inj] at h
      exact .inl h.symm
    · rw [lookup, if_neg he] at h
      exact .inr (ih h)

@[simp] theorem get?_insert (t : Table κ α) (k j : κ) (v : α) :
    (t.insert k v).get? j = if k = j then some v else t.get? j :=
  lookup_put k j v t.entries

@[simp] theorem get?_erase (t : Table κ α) (k j : κ) :
    (t.erase k).get? j = if k = j then none else t.get? j := by
  obtain ⟨es⟩ := t
  simp only [get?, erase]
  induction es with
  | nil => simp [lookup]
  | cons e es ih =>
    obtain ⟨k', v'⟩ := e
    by_cases h : k' = k
    · subst h
      by_cases hj : k' = j
      · subst hj
        simpa [lookup] using ih
      · simpa [lookup, hj] using ih
    · by_cases hj : k' = j
      · subst hj
        simp [lookup, h, Ne.symm h]
      · simpa [lookup, h, hj] using ih

theorem keys_put (k : κ) (v : α) (es : List (κ × α)) :
    (put k v es).map Prod.fst =
      if k ∈ es.map Prod.fst then es.map Prod.fst else es.map Prod.fst ++ [k] := by
  induction es with
  | nil => simp [put]
  | cons e es ih =>
    obtain ⟨k', v'⟩ := e
    by_cases h : k' = k
    · simp [put, h]
    · simp only [put, h, if_false, List.map_cons, ih, List.mem_cons, Ne.symm h, false_or]
      split <;> simp

theorem keys_insert (t : Table κ α) (k : κ) (v : α) :
    (t.insert k v).keys = if k ∈ t.keys then t.keys else t.keys ++ [k] :=
  keys_put k v t.entries

theorem keys_erase (t : Table κ α) (k : κ) : (t.erase k).keys = t.keys.filter (· ≠ k) := by
  simp [keys, erase, List.filter_map, Function.comp_def]

end Table
end PipelineCache
