import PipelineCache.Json.Record
import PipelineCache.Variables

/-! Contexts and projects: the records that hold environment variables. -/
namespace PipelineCache
open Json (Field Format Row)

def Variables.format : Format Variables :=
  (Format.list (.text "a string")).map Variables.ofList Variables.names

/-- A record that has a key of its own and holds variables. -/
class Owner (α : Type) where
  key : α → String
  vars : α → Variables
  setVars : α → Variables → α

/-- The variables of a record are those that were set last. -/
class LawfulOwner (α : Type) [Owner α] : Prop where
  vars_setVars : ∀ (r : α) (v : Variables), Owner.vars (Owner.setVars r v) = v

structure Context where
  id : Option String
  name : String
  vars : Variables
  deriving BEq

namespace Context

/-- A context known by name only. -/
def named (name : String) : Context := ⟨none, name, .empty⟩

def extend (c : Context) (names : List String) : Context :=
  { c with vars := c.vars.insertAll names }

def fields : List Field :=
  [.optional "id" (.text "a string"), .required "name" (.text "a string"),
   .withDefault "envVariables" Variables.format .empty]

def format : Format Context :=
  .record "struct Context" fields (fun (id, name, vars, ()) => ⟨id, name, vars⟩)
    fun c => (c.id, c.name, c.vars, ())

instance : Owner Context := ⟨name, vars, fun c v => { c with vars := v }⟩

instance : LawfulOwner Context := ⟨fun _ _ => rfl⟩

end Context

structure Project where
  slug : String
  name : Option String
  vars : Variables
  deriving BEq

namespace Project

/-- A project known by slug only. -/
def named (slug : String) : Project := ⟨slug, none, .empty⟩

def extend (p : Project) (names : List String) : Project :=
  { p with vars := p.vars.insertAll names }

def fields : List Field :=
  [.required "slug" (.text "a string"), .optional "name" (.text "a string"),
   .withDefault "envVariables" Variables.format .empty]

def format : Format Project :=
  .record "struct Project" fields (fun (slug, name, vars, ()) => ⟨slug, name, vars⟩)
    fun p => (p.slug, p.name, p.vars, ())

instance : Owner Project := ⟨slug, vars, fun p v => { p with vars := v }⟩

instance : LawfulOwner Project := ⟨fun _ _ => rfl⟩

end Project
end PipelineCache
