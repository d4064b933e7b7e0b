import PipelineCache.Proofs.Record.Spelling
import PipelineCache.Proofs.Json.Composed

/-! Every kind of record has a format that is put together from single values, lists and rows. -/
namespace PipelineCache
open Json

/-- A field of a composed format, omitted only where its default stands for it. -/
structure Json.Field.IsComposed (f : Field) : Prop where
  format : Composed f.format
  omits : ∀ v, f.omits v → f.absent = some v

namespace Json.Field.IsComposed
variable {α : Type} {f : Format α} (name : String)

theorem required (h : Composed f) : (Field.required name f).IsComposed :=
  ⟨h, fun _ hv => by cases hv⟩

theorem withDefault (h : Composed f) (default : α) : (Field.withDefault name f default).IsComposed :=
  ⟨h, fun _ hv => by cases hv⟩

theorem optional (h : Composed f) (hn : ∀ a, (f.write a).head? ≠ some 'n') :
    (Field.optional name f).IsComposed where
  format := h.optional hn
  omits
    | none, _ => rfl

end Json.Field.IsComposed

open Json.Field.IsComposed

theorem record_composed {α : Type} (title : String) {fs : List Field} {ofRow : Row fs → α}
    {toRow : α → Row fs} (hf : ∀ f ∈ fs, f.IsComposed) (hn : (names fs).Nodup)
    (hr : ∀ a, ofRow (toRow a) = a) : Composed (.record title fs ofRow toRow) :=
  .map (.row title (fun f hm => (hf f hm).format) (fun f hm => (hf f hm).omits) hn) ofRow toRow hr

theorem Variables.composed : Composed Variables.format :=
  .map (.list (.text _)) _ _ fun v =>
    Variables.ext ((Variables.names_ofList _).trans (Variables.eraseDups_of_nodup v.nodup))

theorem NameSet.composed : Composed NameSet.format :=
  .map (.list (.text _)) _ _ fun _ => NameSet.ofList_eq fun _ => Iff.rfl

theorem Path.composed : Composed Path.format := .map (.text _) _ _ fun _ => rfl

theorem Uri.composed : Composed Uri.format :=
  .checked _ _ _ fun u => by rw [Uri.ofText, Uri.parse_text]

namespace Kind

/-- The fields of a record in their order; variables have none. -/
def fields : Kind → List Field
  | vars => []
  | context => Context.fields
  | project => Project.fields
  | orbOrigin => OrbOrigin.fields
  | orbInterface => OrbInterface.fields
  | orb => Orb.fields
  | image => ImageCheck.fields
  | document => Document.fields

/-- What a record is called in a message. -/
def title : Kind → String
  | vars => "a sequence"
  | context => "struct Context"
  | project => "struct Project"
  | orbOrigin => "struct RemoteOrbInfo"
  | orbInterface => "struct OrbParsedAttributes"
  | orb => "struct OrbInfo"
  | image => "struct CachedDockerImage"
  | document => "struct TextDocumentItem"

theorem format_eq_record {k : Kind} (hk : k ≠ vars) : ∃ (ofRow : Row k.fields → k.Record)
    (toRow : k.Record → Row k.fields), (∀ r, ofRow (toRow r) = r) ∧
      k.format = .record k.title k.fields ofRow toRow := by
  cases k with
  | vars => exact absurd rfl hk
  | _ => exact ⟨_, _, fun _ => rfl, rfl⟩

theorem nodup_names_fields (k : Kind) : (names k.fields).Nodup := by
  cases k <;> decide

theorem fields_composed : (k : Kind) → ∀ f ∈ k.fields, f.IsComposed := by
  have text (expected : String) : Composed (Format.text expected) := .text expected
  have head (expected : String) (s : String) : ((Format.text expected).write s).head? ≠ some 'n' :=
    text_head ((text_follows expected).writes s)
  have origin : ∀ f ∈ OrbOrigin.fields, f.IsComposed := by
    simp only [OrbOrigin.fields, List.forall_mem_cons]
    exact ⟨withDefault _ Path.composed _, withDefault _ (text _) _, withDefault _ (text _) _,
      List.forall_mem_nil _⟩
  have interface : ∀ f ∈ OrbInterface.fields, f.IsComposed := by
    simp only [OrbInterface.fields, List.forall_mem_cons]
    exact ⟨withDefault _ NameSet.composed _, withDefault _ NameSet.composed _,
      withDefault _ NameSet.composed _, withDefault _ NameSet.composed _, List.forall_mem_nil _⟩
  rintro (_ | _ | _ | _ | _ | _ | _ | _)
  · exact List.forall_mem_nil _
  · simp only [fields, Context.fields, List.forall_mem_cons]
    exact ⟨optional _ (text _) (head _), required _ (text _),
      withDefault _ Variables.composed _, List.forall_mem_nil _⟩
  · simp only [fields, Project.fields, List.forall_mem_cons]
    exact ⟨required _ (text _), optional _ (text _) (head _),
      withDefault _ Variables.composed _, List.forall_mem_nil _⟩
  · exact origin
  · exact interface
  · simp only [fields, Orb.fields, List.forall_mem_cons]
    exact ⟨required _ (text _),
      withDefault _ (record_composed _ origin (by decide) fun _ => rfl) _,
      optional _ (record_composed _ interface (by decide) fun _ => rfl)
        fun i => row_head (OrbInterface.follows.writes i),
      List.forall_mem_nil _⟩
  · simp only [fields, ImageCheck.fields, List.forall_mem_cons]
    exact ⟨required _ .flag, required _ .flag, List.forall_mem_nil _⟩
  · simp only [fields, Document.fields, List.forall_mem_cons]
    exact ⟨required _ Uri.composed, required _ (text _), required _ .int32, required _ (text _),
      List.forall_mem_nil _⟩

theorem composed (k : Kind) : Composed k.format := by
  by_cases hk : k = vars
  · subst hk
    exact Variables.composed
  · obtain ⟨ofRow, toRow, hr, he⟩ := format_eq_record hk
    rw [he]
    exact record_composed _ k.fields_composed k.nodup_names_fields hr

theorem fields_steady (k : Kind) : ∀ f ∈ k.fields, f.format.Steady := fun f hf =>
  (k.fields_composed f hf).format.steady

end Kind
end PipelineCache
