import PipelineCache.Json.Record
import PipelineCache.Files.Path
import PipelineCache.NameSet

/-! Orbs: where one came from, and what it offers once its definition has been read. -/
namespace PipelineCache
open Json (Field Format)

def NameSet.format : Format NameSet :=
  (Format.list (.text "a string")).map NameSet.ofList NameSet.names

def Path.format : Format Path := (Format.text "path string").map Path.mk Path.text

/-- What was fetched, and the file that holds it. -/
structure OrbOrigin where
  file : Path
  version : String
  description : String
  deriving BEq

namespace OrbOrigin

def empty : OrbOrigin := ⟨.empty, "", ""⟩

def fields : List Field :=
  [.withDefault "filePath" Path.format .empty, .withDefault "version" (.text "a string") "",
   .withDefault "description" (.text "a string") ""]

def format : Format OrbOrigin :=
  .record "struct RemoteOrbInfo" fields (fun (file, version, text, ()) => ⟨file, version, text⟩)
    fun o => (o.file, o.version, o.description, ())

end OrbOrigin

/-- The names that an orb's definition offers. -/
structure OrbInterface where
  commands : NameSet
  jobs : NameSet
  executors : NameSet
  parameters : NameSet
  deriving BEq

namespace OrbInterface

def empty : OrbInterface := ⟨.empty, .empty, .empty, .empty⟩

def fields : List Field :=
  [.withDefault "commands" NameSet.format .empty, .withDefault "jobs" NameSet.format .empty,
   .withDefault "executors" NameSet.format .empty, .withDefault "parameters" NameSet.format .empty]

def format : Format OrbInterface :=
  .record "struct OrbParsedAttributes" fields
    (fun (commands, jobs, executors, parameters, ()) => ⟨commands, jobs, executors, parameters⟩)
    fun i => (i.commands, i.jobs, i.executors, i.parameters, ())

end OrbInterface

structure Orb where
  source : String
  origin : OrbOrigin
  interface : Option OrbInterface
  deriving BEq

namespace Orb

/-- An orb whose definition has not been read. -/
def unread (source : String) (origin : OrbOrigin) : Orb := ⟨source, origin, none⟩

/-- The file of an orb that has one. -/
def file? (o : Orb) : Option Path := if o.origin.file.isEmpty then none else some o.origin.file

/-- Whether the definition has been read, even if it offers nothing. -/
def isRead (o : Orb) : Bool := o.interface.isSome

def fields : List Field :=
  [.required "source" (.text "a string"), .withDefault "remoteInfo" OrbOrigin.format .empty,
   .optional "parsedAttributes" OrbInterface.format]

def format : Format Orb :=
  .record "struct OrbInfo" fields
    (fun (source, origin, interface, ()) => ⟨source, origin, interface⟩)
    fun o => (o.source, o.origin, o.interface, ())

end Orb
end PipelineCache
