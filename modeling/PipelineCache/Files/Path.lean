import PipelineCache.Text.Pieces

/-! Paths are texts. Two paths are the same to `==` when their components agree: repeated slashes,
a trailing slash and dots behind the start make no difference, and `..` is a component like any
other. -/
namespace PipelineCache

structure Path where
  text : String

/-- A path's components, and whether they start at the root. -/
structure Path.View where
  absolute : Bool
  components : List String
  deriving DecidableEq

namespace Path

def empty : Path := ⟨""⟩

def isEmpty (p : Path) : Bool := p.text.isEmpty

def startsAtRoot (t : List Char) : Bool := t.head? == some '/'

def isAbsolute (p : Path) : Bool := startsAtRoot p.text.toList

/-- A dot counts only where a relative path starts with one. -/
def countsInside (c : List Char) : Bool := !c.isEmpty && c != ['.']

def componentChars (t : List Char) : List (List Char) :=
  match Text.pieces '/' t with
  | [] => []
  | c :: cs => (if c.isEmpty then [] else [c]) ++ cs.filter countsInside

def view (p : Path) : View :=
  ⟨p.isAbsolute, (componentChars p.text.toList).map String.ofList⟩

instance : BEq Path := ⟨fun p q => p.view == q.view⟩

/-- Puts `q` behind `p` with one slash between them, unless `p` is empty or ends with one. A `q`
that is absolute stands alone. -/
def joinChars (p q : List Char) : List Char :=
  if startsAtRoot q then q
  else if p.isEmpty || p.getLast? == some '/' then p ++ q
  else p ++ '/' :: q

def join (p : Path) (q : String) : Path := ⟨String.ofList (joinChars p.text.toList q.toList)⟩

theorem toList_join (p : Path) (q : String) :
    (p.join q).text.toList = joinChars p.text.toList q.toList := by
  simp [join]

end Path
end PipelineCache
