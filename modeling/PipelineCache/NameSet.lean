/-! Sets of names, kept as strictly rising lists, so that a set has one list. -/
namespace PipelineCache

structure NameSet where
  names : List String
  rising : names.Pairwise (· < ·)
  deriving DecidableEq

namespace NameSet

def empty : NameSet := ⟨[], .nil⟩

def size (s : NameSet) : Nat := s.names.length

def place (name : String) : List String → List String
  | [] => [name]
  | x :: xs =>
    if name < x then name :: x :: xs
    else if name = x then x :: xs
    else x :: place name xs

theorem mem_place {name x : String} {xs : List String} :
    x ∈ place name xs ↔ x = name ∨ x ∈ xs := by
  induction xs with
  | nil => simp [place]
  | cons y ys ih =>
    unfold place
    split
    · simp
    · split
      · rename_i h
        simp [h]
      · simp [ih, or_left_comm]

theorem lt_of_not_lt {a b : String} (h : ¬ a < b) (hne : a ≠ b) : b < a := by
  by_cases hb : b < a
  · exact hb
  · exact absurd (String.le_antisymm hb h) hne

theorem rising_place {name : String} {xs : List String} (h : xs.Pairwise (· < ·)) :
    (place name xs).Pairwise (· < ·) := by
  induction xs with
  | nil => simp [place]
  | cons y ys ih =>
    rw [List.pairwise_cons] at h
    unfold place
    split
    · rename_i hl
      simp only [List.pairwise_cons, List.mem_cons, forall_eq_or_imp]
      exact ⟨⟨hl, fun z hz => String.lt_trans hl (h.1 z hz)⟩, h⟩
    · split
      · exact List.pairwise_cons.2 h
      · rename_i hl hne
        refine List.pairwise_cons.2 ⟨fun z hz => ?_, ih h.2⟩
        rcases mem_place.1 hz with rfl | hz
        · exact lt_of_not_lt hl hne
        · exact h.1 z hz

def insert (s : NameSet) (name : String) : NameSet := ⟨place name s.names, rising_place s.rising⟩

def ofList (names : List String) : NameSet := names.foldl insert empty

theorem mem_insert {s : NameSet} {name x : String} :
    x ∈ (s.insert name).names ↔ x = name ∨ x ∈ s.names := mem_place

theorem mem_foldl_insert {names : List String} {s : NameSet} {x : String} :
    x ∈ (names.foldl insert s).names ↔ x ∈ s.names ∨ x ∈ names := by
  induction names generalizing s with
  | nil => simp
  | cons y ys ih => simp [ih, mem_insert, or_assoc, or_left_comm]

theorem mem_ofList {names : List String} {x : String} : x ∈ (ofList names).names ↔ x ∈ names := by
  simp [ofList, mem_foldl_insert, empty]

end NameSet
end PipelineCache
