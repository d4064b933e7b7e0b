import PipelineCache.Table
import PipelineCache.Event
import PipelineCache.Text.Quoted
import PipelineCache.Text.Hidden
import PipelineCache.Text.Outline
import PipelineCache.Record.Owner

/-! Named tables behind a lock. Records may crash while they are copied, asked for their key or
edited; a crash under the lock leaves the entries alone and marks the lock, and the next holder
takes the lock over and reports it. -/
namespace PipelineCache
variable {κ α ρ σ : Type}

structure Store (κ α : Type) where
  name : String
  table : Table κ α
  poisoned : Bool

/-- What an operation leaves: the new state, its answer unless it crashed, and its events. -/
structure Outcome (σ ρ : Type) where
  state : σ
  answer : Option ρ
  events : List Event

/-- The records on which an action crashes. -/
structure Crashes (α : Type) where
  copying : α → Bool
  keying : α → Bool
  editing : α → Bool

def Crashes.none : Crashes α := ⟨fun _ => false, fun _ => false, fun _ => false⟩

/-- A store has no entry for a key that was to be changed. -/
structure MissingEntry where
  store : String
  key : String
  deriving DecidableEq

def MissingEntry.messageWith (hidden : Char → Bool) (m : MissingEntry) : String :=
  "no " ++ m.store ++ " entry for key " ++ Text.quote hidden m.key

def MissingEntry.message (m : MissingEntry) : String := m.messageWith Text.isHidden

namespace Store

def named (name : String) : Store κ α := ⟨name, .empty, false⟩

/-- The store as its next holder finds it. -/
def lock (s : Store κ α) : Store κ α × List Event :=
  ({ s with poisoned := false }, if s.poisoned then [.recovered s.name s.table.size] else [])

/-- Runs `body` under the lock; it gives no answer where it crashes. -/
def hold (s : Store κ α) (body : Table κ α → Option (ρ × Table κ α)) : Outcome (Store κ α) ρ :=
  let (held, events) := s.lock
  match body held.table with
  | some (answer, table) => ⟨{ held with table }, some answer, events⟩
  | none => ⟨{ held with poisoned := true }, none, events⟩

/-- Runs a `body` under the lock that only looks. -/
def peek (s : Store κ α) (body : Table κ α → Option ρ) : Outcome (Store κ α) ρ :=
  s.hold fun t => (body t).map (·, t)

section
variable [DecidableEq κ] (crashes : Crashes α) (s : Store κ α)

/-- The table receives a copy, which is made under the lock. -/
def insert (k : κ) (v : α) : Outcome (Store κ α) α :=
  s.hold fun t => if crashes.copying v then none else some (v, t.insert k v)

def get? (k : κ) : Outcome (Store κ α) (Option α) :=
  s.peek fun t => if (t.get? k).any crashes.copying then none else some (t.get? k)

def contains (k : κ) : Outcome (Store κ α) Bool := s.peek fun t => some (t.contains k)

def erase (k : κ) : Outcome (Store κ α) Unit := s.hold fun t => some ((), t.erase k)

end

section
variable (crashes : Crashes α) (s : Store κ α)

/-- A copy of all entries, which later changes of the store do not reach. -/
def snapshot : Outcome (Store κ α) (Table κ α) :=
  s.peek fun t => if t.values.any crashes.copying then none else some t

def keys : Outcome (Store κ α) (List κ) := s.peek fun t => some t.keys

def clear : Outcome (Store κ α) Unit := s.hold fun _ => some ((), .empty)

def size : Outcome (Store κ α) Nat := s.peek fun t => some t.size

def isEmpty : Outcome (Store κ α) Bool := s.peek fun t => some t.isEmpty

def describe (wide : Bool) : Outcome (Store κ α) String :=
  s.peek fun t => some (Text.outline wide "Store"
    [("name", Text.quote Text.isHidden s.name), ("len", toString t.size)])

end

section
variable [Owner α] (crashes : Crashes α) (s : Store String α)

/-- Stores a record under its own key, which is asked for before the lock is taken. -/
def file (v : α) : Outcome (Store String α) α :=
  if crashes.keying v then ⟨s, none, []⟩ else s.insert crashes (Owner.key v) v

/-- Whether the name was new to the record under the key. -/
def addVariable (k name : String) : Outcome (Store String α) (Except MissingEntry Bool) :=
  s.hold fun t =>
    match t.get? k with
    | none => some (.error ⟨s.name, k⟩, t)
    | some v =>
      if crashes.editing v then none
      else
        some (.ok (!(Owner.vars v).contains name),
          t.insert k (Owner.setVars v ((Owner.vars v).insert name)))

end
end Store
end PipelineCache
