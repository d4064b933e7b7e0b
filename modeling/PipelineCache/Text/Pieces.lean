/-! The pieces of a text between the occurrences of a separator. There is always at least one. -/
namespace PipelineCache.Text
variable {α : Type}

/-- Puts `c` in front of the first piece. -/
def consPiece (c : α) : List (List α) → List (List α)
  | [] => [[c]]
  | p :: ps => (c :: p) :: ps

def pieces [DecidableEq α] (sep : α) : List α → List (List α)
  | [] => [[]]
  | c :: t => if c = sep then [] :: pieces sep t else consPiece c (pieces sep t)

theorem pieces_ne_nil [DecidableEq α] (sep : α) (t : List α) : pieces sep t ≠ [] := by
  cases t with
  | nil => simp [pieces]
  | cons c t =>
    unfold pieces
    split
    · simp
    · cases pieces sep t <;> simp [consPiece]

theorem consPiece_append (c : α) {ps qs : List (List α)} (h : ps ≠ []) :
    consPiece c (ps ++ qs) = consPiece c ps ++ qs := by
  cases ps with
  | nil => exact absurd rfl h
  | cons p ps => rfl

/-- A separator divides the pieces. -/
theorem pieces_append_sep [DecidableEq α] (sep : α) (s t : List α) :
    pieces sep (s ++ sep :: t) = pieces sep s ++ pieces sep t := by
  induction s with
  | nil => simp [pieces]
  | cons c s ih =>
    by_cases h : c = sep
    · simp [pieces, h, ih]
    · simp [pieces, h, ih, consPiece_append c (pieces_ne_nil sep s)]

theorem pieces_of_not_mem [DecidableEq α] {sep : α} {t : List α} (h : sep ∉ t) :
    pieces sep t = [t] := by
  induction t with
  | nil => rfl
  | cons c t ih =>
    simp only [List.mem_cons, not_or] at h
    simp [pieces, Ne.symm h.1, ih h.2, consPiece]

end PipelineCache.Text
