import PipelineCache.Cache.Basic
import PipelineCache.Files.Tree

/-! Removing the files of cached orbs, and teardown, which forgets the orbs too. The orbs are
taken in an order that the caller chooses. -/
namespace PipelineCache

/-- What a sweep leaves behind and tells. -/
structure Swept where
  files : Files
  removed : Nat
  events : List Event

namespace Swept

def removalEvents (p : Path) : Files.Removal → List Event
  | .absent => []
  | .folder => [.leftDirectory p.text]
  | .kept => [.keptFile p.text]
  | .removed => [.removedFile p.text]

/-- Removes the file at a path; one orb's trouble does not stop the sweep. -/
def step (s : Swept) (p : Path) : Swept :=
  match s.files.remove p with
  | (files, r) =>
    ⟨files, if r = .removed then s.removed + 1 else s.removed, s.events ++ removalEvents p r⟩

def ofPaths (fs : Files) (paths : List Path) : Swept := paths.foldl step ⟨fs, 0, []⟩

/-- Orbs without a file are passed over. -/
def ofOrbs (fs : Files) (orbs : List Orb) : Swept := ofPaths fs (orbs.filterMap Orb.file?)

end Swept

structure Report where
  removedFiles : Nat
  clearedOrbs : Nat
  deriving DecidableEq

def Report.describe (r : Report) : String :=
  Text.onOneLine "HostDataReport"
    [("removed_files", toString r.removedFiles), ("cleared_orbs", toString r.clearedOrbs)]

namespace Cache

/-- Orbs and documents are locked together while files are removed. -/
def lockForSweep (c : Cache) : Cache × List Event :=
  let (orbs, orbEvents) := c.orbs.lock
  let (documents, documentEvents) := c.documents.lock
  ({ c with orbs, documents }, orbEvents ++ documentEvents)

/-- Removes the files of the orbs, which stay. -/
def sweep (c : Cache) (fs : Files) (order : List Orb) : Outcome (Cache × Files) Nat :=
  let (c, events) := c.lockForSweep
  let swept := Swept.ofOrbs fs order
  ⟨(c, swept.files), some swept.removed, events ++ swept.events⟩

/-- Removes the files of the orbs and empties their store. -/
def teardown (c : Cache) (fs : Files) (order : List Orb) : Outcome (Cache × Files) Report :=
  let (c, events) := c.lockForSweep
  let swept := Swept.ofOrbs fs order
  let report : Report := ⟨swept.removed, c.orbs.table.size⟩
  ⟨({ c with orbs := { c.orbs with table := .empty } }, swept.files), some report,
    events ++ swept.events ++ [.clearedHost report.removedFiles report.clearedOrbs]⟩

end Cache
end PipelineCache
