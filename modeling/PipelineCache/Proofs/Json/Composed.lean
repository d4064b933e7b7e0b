import PipelineCache.Proofs.Json.Steady

/-! The formats that are put together from single values, lists and rows. A law that goes through
each way of putting them together holds of every format of a field or record. -/
namespace PipelineCache.Json
variable {α β : Type}

/-- A text of one's own may be refused; all other changes of a value can be taken back. -/
inductive Composed : {α : Type} → Format α → Prop
  | text (expected : String) : Composed (.text expected)
  | checked {β : Type} (expected : String) (check : String → Except Fault β) (value : β → String)
      (hv : ∀ b, check (value b) = .ok b) : Composed ((Format.text expected).refine check value)
  | flag : Composed .flag
  | int32 : Composed .int32
  | list {α : Type} {f : Format α} (hf : Composed f) : Composed f.list
  | optional {α : Type} {f : Format α} (hf : Composed f) (hn : ∀ a, (f.write a).head? ≠ some 'n') :
      Composed f.optional
  | map {α β : Type} {f : Format α} (hf : Composed f) (of : α → β) (value : β → α)
      (hv : ∀ b, of (value b) = b) : Composed (f.map of value)
  | row (title : String) {fs : List Field} (hf : ∀ f ∈ fs, Composed f.format)
      (ho : ∀ f ∈ fs, ∀ v, f.omits v → f.absent = some v) (hn : (names fs).Nodup) :
      Composed (.row title fs)

/-- The one text that is written for a value. -/
def Format.written (f : Format α) : Grammar α := fun t a => t = f.write a

theorem Format.Follows.written {f : Format α} {g : Grammar α} (h : f.Follows g) :
    f.Follows f.written where
  opens := by
    rintro v a rfl
    exact h.opens (h.writes a)
  reads := by
    rintro b v r a hb rfl hr
    exact h.reads hb (h.writes a) hr
  writes _ := rfl

def Grammars.written : (fs : List Field) → Grammars fs
  | [] => ()
  | f :: fs => (f.format.written, Grammars.written fs)

theorem Grammars.follow_written {fs : List Field}
    (hf : ∀ f ∈ fs, f.format.Follows f.format.written)
    (ho : ∀ f ∈ fs, ∀ v, f.omits v → f.absent = some v) :
    Grammars.Follow fs (Grammars.written fs) := by
  induction fs with
  | nil => trivial
  | cons f fs ih =>
    obtain ⟨hf, hfs⟩ := List.forall_mem_cons.1 hf
    obtain ⟨ho, hos⟩ := List.forall_mem_cons.1 ho
    exact ⟨⟨hf, ho⟩, ih hfs hos⟩

namespace Composed
variable {f : Format α}

theorem steady (h : Composed f) : f.Steady := by
  induction h with
  | text expected => exact text_steady expected
  | checked expected check value _ => exact (text_steady expected).refine check value
  | flag => exact flag_steady
  | int32 => exact int32_steady
  | list _ ih => exact list_steady ih
  | optional _ _ ih => exact optional_steady ih
  | map _ of value _ ih => exact ih.map of value
  | row title _ _ _ ih => exact row_steady title ih

theorem follows (h : Composed f) : f.Follows f.written := by
  induction h with
  | text expected => exact (text_follows expected).written
  | checked expected check value hv =>
    refine (text_follows expected).written.refine ?_ id
    rintro t b rfl
    exact ⟨value b, rfl, hv b⟩
  | flag => exact flag_follows.written
  | int32 => exact int32_follows.written
  | list _ ih => exact (list_follows ih).written
  | optional _ hn ih =>
    refine (optional_follows ih ?_).written
    rintro v a rfl
    exact hn a
  | map _ of value hv ih =>
    refine ih.map ?_ id
    rintro t b rfl
    exact ⟨value b, rfl, hv b⟩
  | row title _ ho hn ih =>
    exact (row_follows title (Grammars.follow_written ih ho) hn).written

end Composed
end PipelineCache.Json
