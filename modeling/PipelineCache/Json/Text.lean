import PipelineCache.Json.Reader
import PipelineCache.Text.Bytes

/-! Strings of a JSON text. Only the quote, the backslash and the characters below the space are
written escaped; every escape is read. A surrogate has to be half of a pair in a string that is
used, and may stand alone in one that is passed over. -/
namespace PipelineCache.Json.Text

def hexValue? (c : Char) : Option Nat :=
  if c.isDigit then some (c.toNat - 48)
  else if 'a' ≤ c ∧ c ≤ 'f' then some (c.toNat - 87)
  else if 'A' ≤ c ∧ c ≤ 'F' then some (c.toNat - 55)
  else none

/-- The unit that four hexadecimal digits give. A text of fewer than four bytes is cut short. -/
def codeUnit : List Char → Reading Nat
  | a :: b :: c :: d :: t =>
    match hexValue? a, hexValue? b, hexValue? c, hexValue? d with
    | some a, some b, some c, some d => .ok (((a * 16 + b) * 16 + c) * 16 + d, t)
    | _, _, _, _ => .error .malformed
  | t => .error (if PipelineCache.Text.byteLength t < 4 then .truncated else .malformed)

theorem length_codeUnit {t r : List Char} {n : Nat} (h : codeUnit t = .ok (n, r)) :
    r.length < t.length := by
  unfold codeUnit at h
  split at h
  · split at h <;> cases h
    simp only [List.length_cons]; omega
  · cases h

def isLeading (n : Nat) : Bool := 0xd800 ≤ n && n ≤ 0xdbff
def isTrailing (n : Nat) : Bool := 0xdc00 ≤ n && n ≤ 0xdfff

/-- The character that a pair of surrogates stands for. -/
def paired (lead trail : Nat) : Char :=
  Char.ofNat (0x10000 + (lead - 0xd800) * 0x400 + (trail - 0xdc00))

/-- The other half of a pair whose leading surrogate has been read. -/
def trailing (lead : Nat) : List Char → Reading Char
  | '\\' :: 'u' :: t =>
    match codeUnit t with
    | .error e => .error e
    | .ok (trail, r) => if isTrailing trail then .ok (paired lead trail, r) else .error .malformed
  | ['\\'] => .error .truncated
  | [] => .error .truncated
  | _ => .error .malformed

theorem length_trailing {lead : Nat} {t r : List Char} {c : Char}
    (h : trailing lead t = .ok (c, r)) : r.length < t.length := by
  unfold trailing at h
  split at h
  · split at h
    · cases h
    · rename_i hu
      split at h
      · simp only [Except.ok.injEq, Prod.mk.injEq] at h
        have := length_codeUnit hu
        simp only [← h.2, List.length_cons]; omega
      · cases h
  all_goals cases h

/-- A character given by number. -/
def numbered (t : List Char) : Reading Char :=
  match codeUnit t with
  | .error e => .error e
  | .ok (n, r) =>
    if isTrailing n then .error .malformed
    else if isLeading n then trailing n r
    else .ok (Char.ofNat n, r)

theorem length_numbered {t r : List Char} {c : Char} (h : numbered t = .ok (c, r)) :
    r.length < t.length := by
  unfold numbered at h
  split at h
  · cases h
  · rename_i hu
    have := length_codeUnit hu
    split at h
    · cases h
    · split at h
      · have := length_trailing h
        omega
      · cases h; assumption

/-- The character that a letter behind a backslash stands for. -/
def escaped? : Char → Option Char
  | '"' => some '"'
  | '\\' => some '\\'
  | '/' => some '/'
  | 'b' => some '\x08'
  | 'f' => some '\x0c'
  | 'n' => some '\n'
  | 'r' => some '\r'
  | 't' => some '\t'
  | _ => none

def isRaw (c : Char) : Bool := 0x20 ≤ c.val

/-- One character of a string that is used, or `none` for its closing quote. -/
def character : List Char → Reading (Option Char)
  | [] => .error .truncated
  | '"' :: t => .ok (none, t)
  | ['\\'] => .error .truncated
  | '\\' :: 'u' :: t =>
    match numbered t with
    | .error e => .error e
    | .ok (c, r) => .ok (some c, r)
  | '\\' :: e :: t =>
    match escaped? e with
    | some c => .ok (some c, t)
    | none => .error .malformed
  | c :: t => if isRaw c then .ok (some c, t) else .error .malformed

theorem length_character {t r : List Char} {c : Option Char} (h : character t = .ok (c, r)) :
    r.length < t.length := by
  unfold character at h
  split at h
  · cases h
  · cases h; simp
  · cases h
  · split at h
    · cases h
    · rename_i hn
      cases h
      have := length_numbered hn
      simp only [List.length_cons]; omega
  · split at h <;> cases h
    simp only [List.length_cons]; omega
  · split at h <;> cases h
    simp

/-- Adds a character to what has been read, latest first; the closing quote ends it. -/
def gather (got : List Char) : Reader (List Char ⊕ String) :=
  Reader.map ⟨character, length_character⟩ fun
    | some c => .inl (c :: got)
    | none => .inr (String.ofList got.reverse)

/-- A string that is used, from behind its opening quote. -/
def body : Reader String := .loop gather []

/-- One character of a string that is passed over; `true` for its closing quote. -/
def passed : List Char → Reading Bool
  | [] => .error .truncated
  | '"' :: t => .ok (true, t)
  | ['\\'] => .error .truncated
  | '\\' :: 'u' :: t =>
    match codeUnit t with
    | .error e => .error e
    | .ok (_, r) => .ok (false, r)
  | '\\' :: e :: t => if (escaped? e).isSome then .ok (false, t) else .error .malformed
  | c :: t => if isRaw c then .ok (false, t) else .error .malformed

theorem length_passed {t r : List Char} {b : Bool} (h : passed t = .ok (b, r)) :
    r.length < t.length := by
  unfold passed at h
  split at h
  · cases h
  · cases h; simp
  · cases h
  · split at h
    · cases h
    · rename_i hn
      cases h
      have := length_codeUnit hn
      simp only [List.length_cons]; omega
  · split at h <;> cases h
    simp only [List.length_cons]; omega
  · split at h <;> cases h
    simp

/-- A string that is passed over, from behind its opening quote. -/
def skip : Reader Unit :=
  .loop (fun _ : Unit => Reader.map ⟨passed, length_passed⟩ fun
    | false => .inl ()
    | true => .inr ()) ()

/-- A hexadecimal digit, in lower case. -/
def hexDigit (n : Nat) : Char := if n < 10 then Char.ofNat (48 + n) else Char.ofNat (87 + n)

def escape (c : Char) : List Char :=
  if c = '"' ∨ c = '\\' then ['\\', c]
  else if c = '\x08' then ['\\', 'b']
  else if c = '\x0c' then ['\\', 'f']
  else if c = '\n' then ['\\', 'n']
  else if c = '\r' then ['\\', 'r']
  else if c = '\t' then ['\\', 't']
  else if isRaw c then [c]
  else ['\\', 'u', '0', '0', hexDigit (c.toNat / 16), hexDigit (c.toNat % 16)]

def write (s : String) : List Char := '"' :: s.toList.flatMap escape ++ ['"']

end PipelineCache.Json.Text
