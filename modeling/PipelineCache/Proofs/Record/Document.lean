import PipelineCache.Proofs.Json.Checked
import PipelineCache.Proofs.Record.Spelling

/-! Documents before and behind the check of their URI. A text is read as a document exactly where
it is read with any text in place of the URI, and that text is read as a URI. -/
namespace PipelineCache
open Json (Field Format Grammar Row Through)

theorem Uri.ofText_of_parse {u : String} {k : Uri} (h : parse u = .ok k) : ofText u = .ok k := by
  rw [ofText, h]

theorem Uri.ofText_of_fault {u : String} {f : Uri.Fault} (h : parse u = .error f) :
    ofText u = .error (.misfit (.refused f.message)) := by
  rw [ofText, h]

theorem Uri.text_of_ofText {u : String} {k : Uri} (h : ofText u = .ok k) : k.text = u := by
  unfold ofText at h
  split at h
  next hp =>
    cases h
    exact text_parse hp
  next => cases h

namespace Document

/-- A document with any text in place of its URI. -/
structure Raw where
  uri : String
  language : String
  version : Int32
  text : String

def otherFields : List Field :=
  [.required "languageId" (.text "a string"), .required "version" .int32,
   .required "text" (.text "a string")]

abbrev rawFields : List Field := Json.plainly "uri" (.text "a string") otherFields

abbrev rawRow : Format (Row rawFields) := .row "struct TextDocumentItem" rawFields

abbrev row : Format (Row fields) := .row "struct TextDocumentItem" fields

def Raw.ofRow : Row rawFields → Raw
  | (uri, language, version, text, ()) => ⟨uri, language, version, text⟩

def Raw.toRow (r : Raw) : Row rawFields := (r.uri, r.language, r.version, r.text, ())

def Raw.format : Format Raw := .record "struct TextDocumentItem" rawFields Raw.ofRow Raw.toRow

def raw (d : Document) : Raw := ⟨d.uri.text, d.language, d.version, d.text⟩

def Raw.grammar : Grammar Raw := fun t r =>
  Grammar.row rawFields (Grammar.text, Grammar.text, Grammar.int32, Grammar.text, ()) t r.toRow

theorem Raw.follows : Raw.format.Follows Raw.grammar :=
  Json.record_follows _
    ⟨Json.required_follows _ (Json.text_follows _), Json.required_follows _ (Json.text_follows _),
      Json.required_follows _ Json.int32_follows, Json.required_follows _ (Json.text_follows _),
      trivial⟩ (by decide) fun _ => rfl

theorem row_through (t : List Char) :
    Through (Json.first Uri.ofText) (rawRow.reader.run t) (row.reader.run t) :=
  Json.rowRun_checked "uri" (.text "a string") Uri.ofText Uri.text otherFields _ t

/-- The document whose row has been read. -/
def ofRow : Row fields → Document
  | (uri, language, version, text, ()) => ⟨uri, language, version, text⟩

theorem decode_eq_row (t : String) : Kind.document.decode t = (row.decode t).map ofRow :=
  Format.decode_map row ofRow _ t

theorem Raw.decode_eq_row (t : String) : Raw.format.decode t = (rawRow.decode t).map Raw.ofRow :=
  Format.decode_map rawRow Raw.ofRow _ t

/-- A document goes in and out as an item. -/
theorem decode_eq_item (t : String) :
    Kind.document.decode t = (TextDocumentItem.format.decode t).map ofItem := by
  have items : TextDocumentItem.format.decode t = (row.decode t).map (toItem ∘ ofRow) :=
    Format.decode_map row _ _ t
  rw [decode_eq_row, items]
  cases row.decode t <;> rfl

theorem decode_eq_ofItem_iff (t : String) (i : TextDocumentItem) :
    Kind.document.decode t = .ok (ofItem i) ↔ TextDocumentItem.format.decode t = .ok i := by
  rw [decode_eq_item]
  constructor
  · intro h
    obtain ⟨j, hj, he⟩ := Json.exists_of_map_eq_ok h
    cases i
    cases j
    cases he
    exact hj
  · intro h
    rw [h]
    rfl

theorem encode_eq_raw (d : Document) : Kind.document.encode d = Raw.format.encode d.raw := rfl

theorem decode_raw_encode (d : Document) :
    Raw.format.decode (Kind.document.encode d) = .ok d.raw := by
  rw [encode_eq_raw]
  exact Raw.follows.decode_written d.raw

section
variable {t : String} {u language text : String} {version : Int32} {k : Uri}

theorem row_decode_of_raw (h : Raw.format.decode t = .ok ⟨u, language, version, text⟩) :
    row.decode t = (Uri.ofText u).map fun k => (k, language, version, text, ()) := by
  rw [Raw.decode_eq_row] at h
  obtain ⟨⟨u', l', v', x', ⟨⟩⟩, hr, heq⟩ := Json.exists_of_map_eq_ok h
  cases heq
  exact Format.decode_through row_through hr

theorem decode_of_accepted (hu : Uri.parse u = .ok k)
    (h : Raw.format.decode t = .ok ⟨u, language, version, text⟩) :
    Kind.document.decode t = .ok ⟨k, language, version, text⟩ := by
  rw [decode_eq_row, row_decode_of_raw h, Uri.ofText_of_parse hu]
  rfl

theorem decode_of_refused {f : Uri.Fault} (hu : Uri.parse u = .error f)
    (h : Raw.format.decode t = .ok ⟨u, language, version, text⟩) :
    Kind.document.decode t = .error (.misfit (.refused f.message)) := by
  rw [decode_eq_row, row_decode_of_raw h, Uri.ofText_of_fault hu]
  rfl

/-- The URI of a document is spelled as it was read. -/
theorem decode_raw {d : Document} (h : Kind.document.decode t = .ok d) :
    Raw.format.decode t = .ok d.raw := by
  rw [decode_eq_row] at h
  obtain ⟨b, hb, rfl⟩ := Json.exists_of_map_eq_ok h
  obtain ⟨⟨u, l, v, x, ⟨⟩⟩, hs, hc⟩ := Format.exists_of_decode_through row_through hb
  have read : rawRow.decode t = .ok (u, l, v, x, ()) := hs
  obtain ⟨k, hk, rfl⟩ := Json.exists_of_map_eq_ok hc
  have spelled : k.text = u := Uri.text_of_ofText hk
  rw [Raw.decode_eq_row, read, ← spelled]
  rfl

end

end Document
end PipelineCache
