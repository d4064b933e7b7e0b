/-! What the cache reports while it works, by cause, and how each report is worded. -/
namespace PipelineCache

inductive Level where
  | error | debug | trace
  deriving DecidableEq

inductive Event where
  /-- A lock was taken over from a holder that crashed. -/
  | recovered (store : String) (entries : Nat)
  | unknownOrb (orb : String)
  | removedFile (path : String)
  | leftDirectory (path : String)
  | keptFile (path : String)
  | clearedHost (files orbs : Nat)
  | noCacheDirectory
  deriving DecidableEq

/-- A value that an event carries beside its message. -/
inductive Detail where
  | text (value : String)
  | count (value : Nat)

namespace Event

def level : Event → Level
  | recovered .. => .error
  | removedFile _ => .trace
  | _ => .debug

def message : Event → String
  | recovered store _ => store ++ " store lock poisoned by a panicking holder; keeping its entries"
  | unknownOrb _ => "parsed attributes for an orb that is not cached"
  | removedFile _ => "removed cached orb file"
  | leftDirectory _ => "cached orb path is a directory; leaving it"
  | keptFile _ => "failed to remove cached orb file"
  | clearedHost .. => "cleared host data"
  | noCacheDirectory => "no OS cache directory; falling back to ~/.cache"

def details : Event → List (String × Detail)
  | recovered store n => [("store", .text store), ("entries", .count n)]
  | unknownOrb orb => [("orb", .text orb)]
  | removedFile p => [("path", .text p)]
  | leftDirectory p => [("path", .text p)]
  | keptFile p => [("path", .text p)]
  | clearedHost files orbs => [("removed_files", .count files), ("cleared_orbs", .count orbs)]
  | noCacheDirectory => []

end Event
end PipelineCache
