/-! The length of a text in UTF-8. -/
namespace PipelineCache.Text

def byteLength : List Char → Nat
  | [] => 0
  | c :: t => c.utf8Size + byteLength t

theorem byteLength_append (s t : List Char) :
    byteLength (s ++ t) = byteLength s + byteLength t := by
  induction s with
  | nil => simp [byteLength]
  | cons c s ih => simp [byteLength, ih, Nat.add_assoc]

theorem length_le_byteLength (t : List Char) : t.length ≤ byteLength t := by
  induction t with
  | nil => simp [byteLength]
  | cons c t ih =>
    have := c.utf8Size_pos
    simp only [byteLength, List.length_cons]
    omega

end PipelineCache.Text
