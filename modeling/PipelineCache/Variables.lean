/-! Lists of environment variable names: in the order in which they came, none twice. Names are
compared exactly, letter case included. -/
namespace PipelineCache

structure Variables where
  names : List String
  nodup : names.Nodup
  deriving DecidableEq

namespace Variables

def empty : Variables := ⟨[], .nil⟩

def contains (v : Variables) (name : String) : Bool := v.names.contains name

def size (v : Variables) : Nat := v.names.length

def isEmpty (v : Variables) : Bool := v.names.isEmpty

def insert (v : Variables) (name : String) : Variables :=
  if h : name ∈ v.names then v
  else ⟨v.names ++ [name], by
    rw [List.nodup_append]
    exact ⟨v.nodup, by simp, by simp; exact fun a ha hn => h (hn ▸ ha)⟩⟩

/-- Inserts a name and tells whether it was new. -/
def add (v : Variables) (name : String) : Bool × Variables := (!v.contains name, v.insert name)

def insertAll (v : Variables) (names : List String) : Variables := names.foldl insert v

def ofList (names : List String) : Variables := empty.insertAll names

theorem ext {v v' : Variables} (h : v.names = v'.names) : v = v' := by
  cases v
  cases v'
  simp_all

theorem names_insert_of_mem {v : Variables} {name : String} (h : name ∈ v.names) :
    (v.insert name).names = v.names := by
  simp [insert, h]

theorem names_insert_of_not_mem {v : Variables} {name : String} (h : name ∉ v.names) :
    (v.insert name).names = v.names ++ [name] := by
  simp [insert, h]

theorem mem_insert {v : Variables} {name x : String} :
    x ∈ (v.insert name).names ↔ x ∈ v.names ∨ x = name := by
  by_cases h : name ∈ v.names
  · rw [names_insert_of_mem h]
    exact ⟨.inl, fun hx => hx.elim id fun e => e ▸ h⟩
  · simp [names_insert_of_not_mem h]

theorem eraseDups_of_nodup {names : List String} (h : names.Nodup) : names.eraseDups = names := by
  induction names with
  | nil => rfl
  | cons x xs ih =>
    rw [List.nodup_cons] at h
    have hf : xs.filter (fun y => !y == x) = xs := by
      rw [List.filter_eq_self]
      intro y hy
      have hne : y ≠ x := fun he => h.1 (he ▸ hy)
      simp [hne]
    rw [List.eraseDups_cons, hf, ih h.2]

theorem names_insertAll (v : Variables) (names : List String) :
    (v.insertAll names).names = (v.names ++ names).eraseDups := by
  induction names generalizing v with
  | nil => simp [insertAll, eraseDups_of_nodup v.nodup]
  | cons x xs ih =>
    change ((v.insert x).insertAll xs).names = _
    rw [ih]
    by_cases h : x ∈ v.names
    · rw [names_insert_of_mem h, List.eraseDups_append, List.eraseDups_append]
      simp [List.removeAll, h]
    · rw [names_insert_of_not_mem h, List.append_assoc, List.singleton_append]

/-- The first occurrences, in their order. -/
theorem names_ofList (names : List String) : (ofList names).names = names.eraseDups :=
  names_insertAll empty names

theorem contains_iff {v : Variables} {name : String} : v.contains name ↔ name ∈ v.names := by
  simp [contains]

end Variables
end PipelineCache
