import PipelineCache.Cache.Teardown

/-! Several caches over one file system. A cache is reached through handles, and handles of one
cache share its stores. -/
namespace PipelineCache

structure World where
  caches : List Cache
  handles : List Nat
  files : Files

inductive Step where
  | on (handle : Nat) (op : Cache.Op)
  | sweep (handle : Nat)
  | teardown (handle : Nat)
  | newCache
  | share (handle : Nat)
  | write (path : Path)
  | makeFolder (path : Path)
  | link (path target : Path)
  | status (path : Path)

inductive Reply where
  | answer (value : Cache.Answer)
  | crashed
  | removed (files : Nat)
  | report (value : Report)
  | handle (number : Nat)
  | done
  | node (value : Option Node)
  | unknownHandle
  | refused

namespace World

/-- One empty cache with one handle. -/
def initial : World := ⟨[.empty], [0], .initial⟩

def cache? (w : World) (handle : Nat) : Option Cache := w.handles[handle]?.bind (w.caches[·]?)

def setCache (w : World) (handle : Nat) (c : Cache) : World :=
  match w.handles[handle]? with
  | some i => { w with caches := w.caches.set i c }
  | none => w

/-- Works on the cache behind a handle. -/
def withCache (w : World) (handle : Nat) (f : Cache → Outcome (Cache × Files) Reply) :
    World × Reply × List Event :=
  match w.cache? handle with
  | none => (w, .unknownHandle, [])
  | some c =>
    let o := f c
    ({ w.setCache handle o.state.1 with files := o.state.2 }, o.answer.getD .crashed, o.events)

def prepare (w : World) : Option Files → World × Reply × List Event
  | some files => ({ w with files }, .done, [])
  | none => (w, .refused, [])

def step (w : World) : Step → World × Reply × List Event
  | .on h op => w.withCache h fun c =>
    let o := c.perform op
    ⟨(o.state, w.files), o.answer.map .answer, o.events⟩
  | .sweep h => w.withCache h fun c => (c.sweep w.files c.orbs.table.values).map .removed
  | .teardown h => w.withCache h fun c => (c.teardown w.files c.orbs.table.values).map .report
  | .newCache =>
    ({ w with caches := w.caches ++ [.empty], handles := w.handles ++ [w.caches.length] },
      .handle w.handles.length, [])
  | .share h =>
    match w.handles[h]? with
    | some i => ({ w with handles := w.handles ++ [i] }, .handle w.handles.length, [])
    | none => (w, .unknownHandle, [])
  | .write p => w.prepare (w.files.write p)
  | .makeFolder p => w.prepare (w.files.makeFolder p)
  | .link p target => w.prepare (w.files.link p target)
  | .status p => (w, .node (w.files.status p), [])

/-- The world after some steps, and what each of them answered. -/
def run (w : World) : List Step → World × List (Reply × List Event)
  | [] => (w, [])
  | s :: steps =>
    let (w', answer) := w.step s
    let (w'', answers) := run w' steps
    (w'', answer :: answers)

end World
end PipelineCache
