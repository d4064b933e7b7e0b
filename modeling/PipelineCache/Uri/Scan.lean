import PipelineCache.Uri.Address

/-! The scan of a URI reference from left to right. A scan that stops says why, and at which rest of
the text. -/
namespace PipelineCache.Uri

inductive Reason where
  | character | octet | address
  deriving DecidableEq

abbrev Scan (α : Type) := Except (Reason × List Char) α

def isLetter (c : Char) : Bool := ('a' ≤ c && c ≤ 'z') || ('A' ≤ c && c ≤ 'Z')

def isSchemeChar (c : Char) : Bool :=
  isLetter c || c.isDigit || c == '+' || c == '-' || c == '.'

def isUnreserved (c : Char) : Bool :=
  isLetter c || c.isDigit || c == '-' || c == '.' || c == '_' || c == '~'

def isDelimiter (c : Char) : Bool :=
  ['!', '$', '&', '\'', '(', ')', '*', '+', ',', ';', '='].contains c

/-- The characters of a host's name. -/
def isHostChar (c : Char) : Bool := isUnreserved c || isDelimiter c

def isAuthorityChar (c : Char) : Bool := isHostChar c || c == ':'

/-- The characters of a path segment in which a colon might be taken for a scheme's. -/
def isColonless (c : Char) : Bool := isHostChar c || c == '@'

def isPathChar (c : Char) : Bool := isColonless c || c == ':' || c == '/'

def isQueryChar (c : Char) : Bool := isPathChar c || c == '?'

/-- The run of a class at the front of a text, and what follows it. A percent sign with two
hexadecimal digits belongs to every class, and no other percent sign to any. -/
def run (p : Char → Bool) : List Char → Scan (List Char × List Char)
  | [] => .ok ([], [])
  | '%' :: a :: b :: t =>
    if isHexDigit a && isHexDigit b then
      match run p t with
      | .error e => .error e
      | .ok (x, r) => .ok ('%' :: a :: b :: x, r)
    else .error (.octet, '%' :: a :: b :: t)
  | c :: t =>
    if c = '%' then .error (.octet, c :: t)
    else if p c then
      match run p t with
      | .error e => .error e
      | .ok (x, r) => .ok (c :: x, r)
    else .ok ([], c :: t)

/-- What follows the run of a class. -/
def behind (p : Char → Bool) (t : List Char) : Scan (List Char) := (run p t).map Prod.snd

/-- The end of the text, or an optional part that `mark` opens. -/
def part (mark : Char) : List Char → Scan (List Char)
  | [] => .ok []
  | c :: t => if c = mark then behind isQueryChar t else .ok (c :: t)

def finish : List Char → Scan Unit
  | [] => .ok ()
  | t => .error (.character, t)

/-- The query and the fragment. -/
def ending (t : List Char) : Scan Unit := do
  let t ← part '?' t
  let t ← part '#' t
  finish t

def path (t : List Char) : Scan Unit := do
  let t ← behind isPathChar t
  ending t

/-- The path behind an authority is empty or starts with a slash. -/
def rootedPath (t : List Char) : Scan Unit := do
  let (p, r) ← run isPathChar t
  if p.isEmpty || p.head? == some '/' then ending r else .error (.character, t)

/-- What follows an address in square brackets. -/
def literal (t : List Char) : Scan (List Char) :=
  match t.dropWhile (· != ']') with
  | [] => .error (.address, '[' :: t)
  | _ :: r =>
    if isAddress (t.takeWhile (· != ']')) then .ok r else .error (.address, '[' :: t)

/-- What follows an optional port. -/
def behindPort : List Char → List Char
  | ':' :: t => t.dropWhile Char.isDigit
  | t => t

def host : List Char → Scan (List Char)
  | '[' :: t => (literal t).map behindPort
  | t => (behind isHostChar t).map behindPort

/-- The text from the last character that is no digit. -/
def fromLastNonDigit (t : List Char) : List Char :=
  t.drop (t.length - (t.reverse.takeWhile Char.isDigit).length - 1)

/-- A run of authority characters without user information has at most one colon, and only digits
behind it. -/
def plainHost (u r : List Char) : Scan Unit :=
  match u.dropWhile (· != ':') with
  | [] => .ok ()
  | c :: port =>
    if port.contains ':' then .error (.character, c :: port ++ r)
    else if port.all Char.isDigit then .ok ()
    else .error (.character, fromLastNonDigit port ++ r)

def authority (t : List Char) : Scan Unit := do
  let (u, r) ← run isAuthorityChar t
  match u, r with
  | _, '@' :: r => rootedPath (← host r)
  | [], '[' :: r => rootedPath (behindPort (← literal r))
  | u, r =>
    plainHost u r
    rootedPath r

def hierarchy : List Char → Scan Unit
  | '/' :: '/' :: t => authority t
  | t => path t

/-- A reference without scheme and authority: no colon in its first segment. -/
def relative (t : List Char) : Scan Unit := do
  let r ← behind isColonless t
  match r with
  | ':' :: _ => .error (.character, r)
  | _ => path r

def reference (t : List Char) : Scan Unit :=
  match t.takeWhile isSchemeChar, t.dropWhile isSchemeChar with
  | w, ':' :: r => if w.head?.any isLetter then hierarchy r else .error (.character, t)
  | [], '/' :: '/' :: r => authority r
  | _, r => relative r

end PipelineCache.Uri
