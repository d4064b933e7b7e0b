/-! Quoted text, as keys and names appear in messages and debug lines. Which characters beyond
ASCII are shown by number is a parameter; nothing else depends on it. -/
namespace PipelineCache.Text

def isControl (c : Char) : Bool := c.val < 0x20 || c.val == 0x7f

/-- Lower-case hexadecimal digits, none in front that is not needed. -/
def hexDigits (n : Nat) : List Char := Nat.toDigits 16 n

def byNumber (c : Char) : List Char := ['\\', 'u', '{'] ++ hexDigits c.toNat ++ ['}']

def quoteChar (hidden : Char → Bool) (c : Char) : List Char :=
  if c = '"' ∨ c = '\\' then ['\\', c]
  else if c = '\n' then ['\\', 'n']
  else if c = '\r' then ['\\', 'r']
  else if c = '\t' then ['\\', 't']
  else if c = '\x00' then ['\\', '0']
  else if isControl c ∨ (0x80 ≤ c.val ∧ hidden c) then byNumber c
  else [c]

def quoteChars (hidden : Char → Bool) (s : List Char) : List Char :=
  '"' :: s.flatMap (quoteChar hidden) ++ ['"']

def quote (hidden : Char → Bool) (s : String) : String :=
  String.ofList (quoteChars hidden s.toList)

theorem toList_quote (hidden : Char → Bool) (s : String) :
    (quote hidden s).toList = quoteChars hidden s.toList := by
  simp [quote]

end PipelineCache.Text
