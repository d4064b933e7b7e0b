import PipelineCache.Files.Path
import PipelineCache.Event

/-! Where cached files live: under a root that comes from an explicit choice, from the
environment, or from the user's home. -/
namespace PipelineCache

/-- The values of the environment that count, and the home directory on record for the user. -/
structure Environment where
  chosenRoot : Option String
  userCache : Option String
  home : Option String
  account : Option String

namespace Environment

def nonempty? (s : Option String) : Option String := s.filter fun s => !s.isEmpty

/-- The home that the environment names, or else the one on record. -/
def homeFolder? (e : Environment) : Option Path :=
  ((nonempty? e.home).or (nonempty? e.account)).map Path.mk

/-- The system's folder for caches: one that is named itself where it is absolute, else one in the
home. -/
def cacheFolder? (e : Environment) : Option Path :=
  match e.userCache.filter fun s => Path.isAbsolute ⟨s⟩ with
  | some s => some ⟨s⟩
  | none => e.homeFolder?.map (·.join ".cache")

/-- The system's folder for caches; without one a folder in the home, which is relative where there
is no home either, and an event says so. -/
def selectRoot (system home : Option Path) : Path × List Event :=
  match system with
  | some p => (p, [])
  | none => ((home.getD .empty).join ".cache", [.noCacheDirectory])

/-- The root without an explicit choice. -/
def standardRoot (e : Environment) : Path × List Event :=
  selectRoot e.cacheFolder? e.homeFolder?

end Environment

/-- An explicit choice of the root, even an empty one, goes before the environment. -/
structure Settings where
  chosen : Option Path

namespace Settings

def ofEnvironment (e : Environment) : Settings := ⟨(Environment.nonempty? e.chosenRoot).map Path.mk⟩

def root (s : Settings) (e : Environment) : Path × List Event :=
  match s.chosen with
  | some p => (p, [])
  | none => e.standardRoot

end Settings

def orbFolder : List String := ["cci", "orbs", ".circleci"]

/-- The file of an orb's definition below a cache root. -/
def orbPathUnder (root : Path) (orb : String) : Path :=
  (orbFolder.foldl Path.join root).join (orb ++ ".yml")

def Settings.orbPath (s : Settings) (e : Environment) (orb : String) : Path × List Event :=
  let (root, events) := s.root e
  (orbPathUnder root orb, events)

def Environment.orbPath (e : Environment) (orb : String) : Path × List Event :=
  let (root, events) := e.standardRoot
  (orbPathUnder root orb, events)

end PipelineCache
