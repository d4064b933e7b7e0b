import PipelineCache.Store.Basic

/-! The operations of a store as data, and their answers. -/
namespace PipelineCache
variable {κ α σ ρ ρ' : Type}

inductive Store.Op (κ α : Type) where
  | insert (key : κ) (value : α)
  | get? (key : κ)
  | contains (key : κ)
  | erase (key : κ)
  | clear
  | snapshot
  | keys
  | size
  | isEmpty
  | name
  | describe (wide : Bool)

inductive Store.Answer (κ α : Type) where
  | done
  | flag (value : Bool)
  | count (value : Nat)
  | text (value : String)
  | record (value : α)
  | found (value : Option α)
  | entries (value : Table κ α)
  | keys (value : List κ)

def Outcome.map (o : Outcome σ ρ) (f : ρ → ρ') : Outcome σ ρ' :=
  ⟨o.state, o.answer.map f, o.events⟩

/-- The name is known without the lock. -/
def Store.perform [DecidableEq κ] (crashes : Crashes α) (s : Store κ α) :
    Store.Op κ α → Outcome (Store κ α) (Store.Answer κ α)
  | .insert k v => (s.insert crashes k v).map .record
  | .get? k => (s.get? crashes k).map .found
  | .contains k => (s.contains k).map .flag
  | .erase k => (s.erase k).map fun _ => .done
  | .clear => s.clear.map fun _ => .done
  | .snapshot => (s.snapshot crashes).map .entries
  | .keys => s.keys.map .keys
  | .size => s.size.map .count
  | .isEmpty => s.isEmpty.map .flag
  | .name => ⟨s, some (.text s.name), []⟩
  | .describe wide => (s.describe wide).map .text

end PipelineCache
