import PipelineCache.Text.Pieces

/-! Addresses in square brackets: eight groups of hexadecimal digits, of which `::` may stand for
one or more and the last two may be written as a dotted address. -/
namespace PipelineCache.Uri
open PipelineCache.Text (pieces)

def isHexDigit (c : Char) : Bool :=
  c.isDigit || ('a' ≤ c && c ≤ 'f') || ('A' ≤ c && c ≤ 'F')

def isGroup (g : List Char) : Bool := 0 < g.length && g.length ≤ 4 && g.all isHexDigit

def digitsValue (ds : List Char) : Nat := ds.foldl (fun n c => n * 10 + (c.toNat - 48)) 0

/-- A number up to 255 without a leading zero. -/
def isOctet (o : List Char) : Bool :=
  0 < o.length && o.length ≤ 3 && o.all Char.isDigit && digitsValue o ≤ 255 &&
    (o.length == 1 || o.head? != some '0')

def isDotted (a : List Char) : Bool := (pieces '.' a).length == 4 && (pieces '.' a).all isOctet

/-- How many groups the pieces between colons stand for; a dotted address at the end is two. -/
def groupCount? : List (List Char) → Option Nat
  | [] => some 0
  | [g] => if isGroup g then some 1 else if isDotted g then some 2 else none
  | g :: gs => if isGroup g then (groupCount? gs).map (· + 1) else none

/-- What stands on both sides of the first `::`. -/
def splitGap? : List Char → Option (List Char × List Char)
  | [] => none
  | ':' :: ':' :: r => some ([], r)
  | c :: t => (splitGap? t).map fun (l, r) => (c :: l, r)

/-- The pieces of one side of a `::`, which may be empty. -/
def side (a : List Char) : List (List Char) := if a.isEmpty then [] else pieces ':' a

def isAddress (a : List Char) : Bool :=
  match splitGap? a with
  | none => groupCount? (pieces ':' a) == some 8
  | some (l, r) =>
    (side l).all isGroup &&
      match groupCount? (side r) with
      | some n => (side l).length + n ≤ 7
      | none => false

end PipelineCache.Uri
