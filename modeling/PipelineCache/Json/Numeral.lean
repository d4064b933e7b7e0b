import PipelineCache.Json.Reader

/-! Numbers of a JSON text: first their spelling, then the value a record sees. A number without
fraction and exponent is whole as long as it fits 64 bits; all others are doubles, computed from a
significand of at most 64 bits and a power of ten. -/
namespace PipelineCache.Json

/-- The digits of a number as they are spelled; a fraction or an exponent has at least one. -/
structure Numeral where
  negative : Bool
  whole : List Char
  fraction : List Char
  exponent : Option (Bool × List Char)

namespace Numeral

/-- All digits at the front of a text that has one there. -/
def digits : List Char → Reading (List Char)
  | [] => .error .truncated
  | c :: t =>
    if c.isDigit then .ok (c :: t.takeWhile Char.isDigit, t.dropWhile Char.isDigit)
    else .error .malformed

theorem length_digits {t r ds : List Char} (h : digits t = .ok (ds, r)) :
    r.length < t.length := by
  unfold digits at h
  split at h
  · cases h
  · rename_i c t
    split at h <;> cases h
    have := (List.dropWhile_sublist (l := t) Char.isDigit).length_le
    simp only [List.length_cons]; omega

/-- No zero stands in front of another digit. -/
def wholePart (t : List Char) : Reading (List Char) :=
  match digits t with
  | .error e => .error e
  | .ok ('0' :: _ :: _, _) => .error .malformed
  | .ok (ds, r) => .ok (ds, r)

theorem length_wholePart {t r ds : List Char} (h : wholePart t = .ok (ds, r)) :
    r.length < t.length := by
  unfold wholePart at h
  split at h
  · cases h
  · cases h
  · rename_i hd
    cases h
    exact length_digits hd

def fractionPart : List Char → Reading (List Char)
  | '.' :: t => digits t
  | t => .ok ([], t)

theorem length_fractionPart {t r ds : List Char} (h : fractionPart t = .ok (ds, r)) :
    r.length ≤ t.length := by
  unfold fractionPart at h
  split at h
  · have := length_digits h
    simp only [List.length_cons]; omega
  · cases h; exact Nat.le_refl _

/-- Whether a minus sign stands at the front, and what follows the sign. -/
def exponentSign : List Char → Bool × List Char
  | '+' :: t => (false, t)
  | '-' :: t => (true, t)
  | t => (false, t)

theorem length_exponentSign (t : List Char) : (exponentSign t).2.length ≤ t.length := by
  unfold exponentSign
  split <;> simp

def exponentPart : List Char → Reading (Option (Bool × List Char))
  | [] => .ok (none, [])
  | c :: t =>
    if c = 'e' ∨ c = 'E' then
      match digits (exponentSign t).2 with
      | .error e => .error e
      | .ok (ds, r) => .ok (some ((exponentSign t).1, ds), r)
    else .ok (none, c :: t)

theorem length_exponentPart {t r : List Char} {x : Option (Bool × List Char)}
    (h : exponentPart t = .ok (x, r)) : r.length ≤ t.length := by
  unfold exponentPart at h
  split at h
  · cases h; simp
  · rename_i c t
    split at h
    · split at h
      · cases h
      · rename_i hd
        cases h
        have := length_digits hd
        have := length_exponentSign t
        simp only [List.length_cons]; omega
    · cases h; simp

def sign : List Char → Bool × List Char
  | '-' :: t => (true, t)
  | t => (false, t)

theorem length_sign (t : List Char) : (sign t).2.length ≤ t.length := by
  unfold sign
  split <;> simp

def read (t : List Char) : Reading Numeral :=
  match wholePart (sign t).2 with
  | .error e => .error e
  | .ok (whole, t₁) =>
    match fractionPart t₁ with
    | .error e => .error e
    | .ok (fraction, t₂) =>
      match exponentPart t₂ with
      | .error e => .error e
      | .ok (exponent, t₃) => .ok (⟨(sign t).1, whole, fraction, exponent⟩, t₃)

theorem length_read {t r : List Char} {n : Numeral} (h : read t = .ok (n, r)) :
    r.length < t.length := by
  unfold read at h
  split at h
  · cases h
  · rename_i hw
    split at h
    · cases h
    · rename_i hf
      split at h
      · cases h
      · rename_i he
        cases h
        have := length_sign t
        have := length_wholePart hw
        have := length_fractionPart hf
        have := length_exponentPart he
        omega

def digitValue (c : Char) : Nat := c.toNat - 48

def natValue (ds : List Char) : Nat := ds.foldl (fun n c => n * 10 + digitValue c) 0

/-- Takes digits on while the number fits 64 bits; the digits from the first that does not come
back. -/
def significand (s : Nat) : List Char → Nat × List Char
  | [] => (s, [])
  | c :: cs =>
    if s * 10 + digitValue c < UInt64.size then significand (s * 10 + digitValue c) cs
    else (s, c :: cs)

def tenTo (n : Nat) : Float := Float.ofScientific 1 false n

/-- Divides by `10 ^ n`, in steps of at most 308 places. -/
def lower (x : Float) (n : Nat) : Float :=
  if n ≤ 308 then x / tenTo n
  else if x == 0 then x
  else lower (x / tenTo 308) (n - 308)
termination_by n

/-- Multiplies by `10 ^ n`, as far as the product is finite. -/
def raise (x : Float) (n : Nat) : Except Fault Float :=
  if n ≤ 308 then
    let y := x * tenTo n
    if y.isInf then .error .malformed else .ok y
  else if x == 0 then .ok x
  else .error .malformed

def signed (negative : Bool) (x : Float) : Found := .double (if negative then -x else x).toBits

/-- The double `± s * 10 ^ e`. -/
def double (negative : Bool) (s : Nat) (e : Int) : Except Fault Found :=
  let x := s.toUInt64.toFloat
  if e < 0 then .ok (signed negative (lower x (-e).toNat))
  else (raise x e.toNat).map (signed negative)

/-- An exponent beyond 31 bits leaves nothing but zero, or too much. -/
def exponentLimit : Nat := 2147483647

def fractional (n : Numeral) (s : Nat) (shift : Int) : Except Fault Found :=
  let (s', left) := significand s n.fraction
  let e := shift - (n.fraction.length - left.length : Nat)
  match n.exponent with
  | none => double n.negative s' e
  | some (negative, ds) =>
    if natValue ds ≤ exponentLimit then
      double n.negative s' (if negative then e - natValue ds else e + natValue ds)
    else if s' = 0 ∨ negative then .ok (signed n.negative 0)
    else .error .malformed

/-- The magnitude of the lowest number that 64 bits with a sign hold. -/
def lowestMagnitude : Nat := 9223372036854775808

/-- Zero with a minus sign is a double, like what is too low for 64 bits. -/
def integer (negative : Bool) (s : Nat) : Except Fault Found :=
  if !negative then .ok (.integer s)
  else if s = 0 ∨ lowestMagnitude < s then double true s 0
  else .ok (.integer (-s))

def value (n : Numeral) : Except Fault Found :=
  let (s, left) := significand 0 n.whole
  if left.isEmpty && n.fraction.isEmpty && n.exponent.isNone then integer n.negative s
  else fractional n s left.length

/-- The shortest spelling of a whole number. -/
def write (n : Int) : List Char :=
  if n < 0 then '-' :: Nat.toDigits 10 n.natAbs else Nat.toDigits 10 n.natAbs

end Numeral

def startsNumber (c : Char) : Bool := c == '-' || c.isDigit

/-- A number's value as a record sees it. -/
def numberFound (t : List Char) : Reading Found :=
  match Numeral.read t with
  | .error e => .error e
  | .ok (n, r) =>
    match n.value with
    | .error e => .error e
    | .ok v => .ok (v, r)

theorem length_numberFound {t r : List Char} {v : Found} (h : numberFound t = .ok (v, r)) :
    r.length < t.length := by
  unfold numberFound at h
  split at h
  · cases h
  · rename_i hn
    split at h <;> cases h
    exact Numeral.length_read hn

/-- A number that is passed over may be of any size, but has to end properly before the text does.
-/
def skipNumber (t : List Char) : Except Fault (List Char) :=
  match Numeral.read t with
  | .error _ => .error .malformed
  | .ok (_, r) => .ok r

theorem length_skipNumber {t r : List Char} (h : skipNumber t = .ok r) : r.length < t.length := by
  unfold skipNumber at h
  split at h
  · cases h
  · rename_i hn
    cases h
    exact Numeral.length_read hn

end PipelineCache.Json
