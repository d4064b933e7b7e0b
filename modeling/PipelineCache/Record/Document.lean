import PipelineCache.Json.Record
import PipelineCache.Uri.Basic

/-! Open documents and checks of container images. -/
namespace PipelineCache
open Json (Field Format)

def Uri.ofText (s : String) : Except Json.Fault Uri :=
  match Uri.parse s with
  | .ok u => .ok u
  | .error f => .error (.misfit (.refused f.message))

def Uri.format : Format Uri := (Format.text "a string").refine Uri.ofText Uri.text

structure Document where
  uri : Uri
  language : String
  version : Int32
  text : String
  deriving BEq

namespace Document

def fields : List Field :=
  [.required "uri" Uri.format, .required "languageId" (.text "a string"),
   .required "version" .int32, .required "text" (.text "a string")]

def format : Format Document :=
  .record "struct TextDocumentItem" fields
    (fun (uri, language, version, text, ()) => ⟨uri, language, version, text⟩)
    fun d => (d.uri, d.language, d.version, d.text, ())

/-- A document under a URI that is still to be read. -/
def build (uri language : String) (version : Int32) (text : String) : Except Uri.Fault Document :=
  (Uri.parse uri).map fun k => ⟨k, language, version, text⟩

end Document

/-- A document as an editor sends it. -/
structure TextDocumentItem where
  uri : Uri
  language : String
  version : Int32
  text : String

def TextDocumentItem.format : Format TextDocumentItem :=
  .record "struct TextDocumentItem" Document.fields
    (fun (uri, language, version, text, ()) => ⟨uri, language, version, text⟩)
    fun i => (i.uri, i.language, i.version, i.text, ())

def Document.ofItem (i : TextDocumentItem) : Document := ⟨i.uri, i.language, i.version, i.text⟩

def Document.toItem (d : Document) : TextDocumentItem := ⟨d.uri, d.language, d.version, d.text⟩

/-- Whether an image has been looked for, and whether it was there. -/
structure ImageCheck where
  checked : Bool
  found : Bool
  deriving BEq

namespace ImageCheck

/-- The result of a check that has been made. -/
def made (found : Bool) : ImageCheck := ⟨true, found⟩

def fields : List Field := [.required "checked" .flag, .required "exists" .flag]

def format : Format ImageCheck :=
  .record "struct CachedDockerImage" fields (fun (checked, found, ()) => ⟨checked, found⟩)
    fun i => (i.checked, i.found, ())

end ImageCheck
end PipelineCache
