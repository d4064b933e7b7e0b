import PipelineCache.Store.Op
import PipelineCache.Record.Orb
import PipelineCache.Record.Document

/-! The five stores of a cache, and the operations on them. -/
namespace PipelineCache
variable {ρ : Type}

inductive Shelf where
  | documents | orbs | images | contexts | projects
  deriving DecidableEq

namespace Shelf

def title : Shelf → String
  | documents => "documents"
  | orbs => "orbs"
  | images => "docker images"
  | contexts => "contexts"
  | projects => "projects"

abbrev Key : Shelf → Type
  | documents => Uri
  | orbs => String
  | images => String
  | contexts => String
  | projects => String

instance : (s : Shelf) → DecidableEq s.Key
  | documents => inferInstanceAs (DecidableEq Uri)
  | orbs => inferInstanceAs (DecidableEq String)
  | images => inferInstanceAs (DecidableEq String)
  | contexts => inferInstanceAs (DecidableEq String)
  | projects => inferInstanceAs (DecidableEq String)

/-- The keys of documents are URIs; all texts are keys of the other stores. -/
def readKey : (s : Shelf) → String → Except Uri.Fault s.Key
  | documents, t => Uri.parse t
  | orbs, t => .ok t
  | images, t => .ok t
  | contexts, t => .ok t
  | projects, t => .ok t

def keyText : (s : Shelf) → s.Key → String
  | documents, k => k.text
  | orbs, k => k
  | images, k => k
  | contexts, k => k
  | projects, k => k

abbrev Record : Shelf → Type
  | documents => Document
  | orbs => Orb
  | images => ImageCheck
  | contexts => Context
  | projects => Project

def format : (s : Shelf) → Json.Format s.Record
  | documents => Document.format
  | orbs => Orb.format
  | images => ImageCheck.format
  | contexts => Context.format
  | projects => Project.format

end Shelf

structure Cache where
  documents : Store Uri Document
  orbs : Store String Orb
  images : Store String ImageCheck
  contexts : Store String Context
  projects : Store String Project

namespace Cache

def empty : Cache where
  documents := .named Shelf.documents.title
  orbs := .named Shelf.orbs.title
  images := .named Shelf.images.title
  contexts := .named Shelf.contexts.title
  projects := .named Shelf.projects.title

def store (c : Cache) : (s : Shelf) → Store s.Key s.Record
  | .documents => c.documents
  | .orbs => c.orbs
  | .images => c.images
  | .contexts => c.contexts
  | .projects => c.projects

def put (c : Cache) : (s : Shelf) → Store s.Key s.Record → Cache
  | .documents, st => { c with documents := st }
  | .orbs, st => { c with orbs := st }
  | .images, st => { c with images := st }
  | .contexts, st => { c with contexts := st }
  | .projects, st => { c with projects := st }

@[simp] theorem store_put (c : Cache) (s : Shelf) (st : Store s.Key s.Record) :
    (c.put s st).store s = st := by
  cases s <;> rfl

theorem store_put_of_ne (c : Cache) {s s' : Shelf} (h : s ≠ s') (st : Store s.Key s.Record) :
    (c.put s st).store s' = c.store s' := by
  cases s <;> cases s' <;> simp_all [put, store]

/-- Works on one store of the cache. -/
def on (c : Cache) (s : Shelf) (o : Outcome (Store s.Key s.Record) ρ) : Outcome Cache ρ :=
  ⟨c.put s o.state, o.answer, o.events⟩

/-- Notes what a check for a container image has found. -/
def noteImage (c : Cache) (name : String) (found : Bool) : Outcome Cache ImageCheck :=
  c.on .images (c.images.insert .none name (.made found))

/-- Files a document under its own URI. -/
def fileDocument (c : Cache) (d : Document) : Outcome Cache Document :=
  c.on .documents (c.documents.insert .none d.uri d)

/-- Replaces what an orb that is stored offers. -/
def attach (c : Cache) (id : String) (i : OrbInterface) :
    Outcome Cache (Except MissingEntry OrbInterface) :=
  let o : Outcome Cache (Except MissingEntry OrbInterface) := c.on .orbs (c.orbs.hold fun t =>
    match t.get? id with
    | none => some (.error ⟨c.orbs.name, id⟩, t)
    | some orb => some (.ok i, t.insert id { orb with interface := some i }))
  match o.answer with
  | some (.error _) => { o with events := o.events ++ [.unknownOrb id] }
  | _ => o

/-- The sizes of the stores, in the order of their declaration. -/
def sizes (c : Cache) : List Nat :=
  [c.documents.table.size, c.orbs.table.size, c.images.table.size,
   c.contexts.table.size, c.projects.table.size]

/-- A named line about one store, unless it crashed. -/
def line {σ : Type} (name : String) (o : Outcome σ String) : Option (String × String) :=
  o.answer.map (name, ·)

def describe (c : Cache) (wide : Bool) : Outcome Cache String :=
  let documents := c.documents.describe wide
  let orbs := c.orbs.describe wide
  let images := c.images.describe wide
  let contexts := c.contexts.describe wide
  let projects := c.projects.describe wide
  let lines := [line "documents" documents, line "orbs" orbs, line "docker_images" images,
    line "contexts" contexts, line "projects" projects]
  ⟨⟨documents.state, orbs.state, images.state, contexts.state, projects.state⟩,
    (lines.mapM id).map (Text.outline wide "Cache"),
    documents.events ++ orbs.events ++ images.events ++ contexts.events ++ projects.events⟩

inductive Op where
  | on (shelf : Shelf) (op : Store.Op shelf.Key shelf.Record)
  | fileDocument (d : Document)
  | fileContext (c : Context)
  | fileProject (p : Project)
  | noteImage (name : String) (found : Bool)
  | addContextVariable (key name : String)
  | addProjectVariable (key name : String)
  | attach (id : String) (interface : OrbInterface)
  | describe (wide : Bool)

inductive Answer where
  | on (shelf : Shelf) (answer : Store.Answer shelf.Key shelf.Record)
  | interface (value : OrbInterface)
  | text (value : String)
  | missing (entry : MissingEntry)

/-- The answer of an operation on an entry that may be missing. -/
def Answer.orMissing (f : ρ → Answer) : Except MissingEntry ρ → Answer
  | .ok a => f a
  | .error m => .missing m

def perform (c : Cache) : Op → Outcome Cache Answer
  | .on s op => (c.on s ((c.store s).perform .none op)).map (.on s)
  | .fileDocument d => (c.fileDocument d).map fun d => .on .documents (.record d)
  | .fileContext v =>
    (c.on .contexts (c.contexts.file .none v)).map fun v => .on .contexts (.record v)
  | .fileProject v =>
    (c.on .projects (c.projects.file .none v)).map fun v => .on .projects (.record v)
  | .noteImage name found => (c.noteImage name found).map fun v => .on .images (.record v)
  | .addContextVariable key name =>
    (c.on .contexts (c.contexts.addVariable .none key name)).map
      (.orMissing fun b => .on .contexts (.flag b))
  | .addProjectVariable key name =>
    (c.on .projects (c.projects.addVariable .none key name)).map
      (.orMissing fun b => .on .projects (.flag b))
  | .attach id i => (c.attach id i).map (.orMissing .interface)
  | .describe wide => (c.describe wide).map .text

end Cache
end PipelineCache
