import PipelineCache.Text.Quoted
import PipelineCache.Text.Hidden
import PipelineCache.Decimal.Shortest

/-! What can be wrong with a record's text, by cause, and the words for a value that does not fit.
-/
namespace PipelineCache.Json

/-- What stands where a value of another type is expected. Doubles are told apart by their bits. -/
inductive Found where
  | null
  | boolean (value : Bool)
  | integer (value : Int)
  | double (bits : UInt64)
  | text (value : String)
  | sequence
  | map
  deriving DecidableEq

inductive Misfit where
  | wrongType (found : Found) (expected : String)
  | outOfRange (value : Int) (expected : String)
  | badLength (found : Nat) (record : String) (arity : Nat)
  | missing (name : String)
  | duplicate (name : String)
  | refused (reason : String)
  deriving DecidableEq

/-- A text is no JSON, or ends inside a value, or holds a value that does not fit. -/
inductive Fault where
  | malformed
  | truncated
  | misfit (cause : Misfit)
  deriving DecidableEq

/-- Doubles are written positionally from 0.00001 up to where the whole part has 16 digits. -/
def Found.doubleSpan : Decimal.Span := ⟨-5, 15⟩

def Found.words : Found → String
  | .null => "null"
  | .boolean b => "boolean `" ++ (if b then "true" else "false") ++ "`"
  | .integer n => "integer `" ++ toString n ++ "`"
  | .double bits => "floating point `" ++ Decimal.showBits doubleSpan bits ++ "`"
  | .text s => "string " ++ Text.quote Text.isHidden s
  | .sequence => "sequence"
  | .map => "map"

def Misfit.message : Misfit → String
  | .wrongType found expected => "invalid type: " ++ found.words ++ ", expected " ++ expected
  | .outOfRange n expected => "invalid value: integer `" ++ toString n ++ "`, expected " ++ expected
  | .badLength n record arity =>
    "invalid length " ++ toString n ++ ", expected " ++ record ++ " with " ++ toString arity
      ++ (if arity = 1 then " element" else " elements")
  | .missing name => "missing field `" ++ name ++ "`"
  | .duplicate name => "duplicate field `" ++ name ++ "`"
  | .refused reason => reason

end PipelineCache.Json
