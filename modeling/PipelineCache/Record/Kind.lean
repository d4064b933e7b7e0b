import PipelineCache.Record.Owner
import PipelineCache.Record.Orb
import PipelineCache.Record.Document

/-! The kinds of records that have a JSON text, each with its type and format. -/
namespace PipelineCache
open Json (Format)

inductive Kind where
  | vars | context | project | orbOrigin | orbInterface | orb | image | document
  deriving DecidableEq

namespace Kind

abbrev Record : Kind → Type
  | vars => Variables
  | context => Context
  | project => Project
  | orbOrigin => OrbOrigin
  | orbInterface => OrbInterface
  | orb => Orb
  | image => ImageCheck
  | document => Document

def format : (k : Kind) → Format k.Record
  | vars => Variables.format
  | context => Context.format
  | project => Project.format
  | orbOrigin => OrbOrigin.format
  | orbInterface => OrbInterface.format
  | orb => Orb.format
  | image => ImageCheck.format
  | document => Document.format

def decode (k : Kind) (text : String) : Except Json.Fault k.Record := k.format.decode text

def encode (k : Kind) (r : k.Record) : String := k.format.encode r

/-- Equality of records: files by their paths' components, all else exactly. -/
def same : (k : Kind) → k.Record → k.Record → Bool
  | vars => fun a b => a == b
  | context => fun a b => a == b
  | project => fun a b => a == b
  | orbOrigin => fun a b => a == b
  | orbInterface => fun a b => a == b
  | orb => fun a b => a == b
  | image => fun a b => a == b
  | document => fun a b => a == b

end Kind
end PipelineCache
