/-! The shortest decimal that reads back as a given double. A positive double is a whole number
times a power of two; the reals that round to it form an interval around it. The grids of decimals
with 1, 2, 3, … digits are tried in turn: the first that has a point in the interval gives the
answer, the nearer of the value's two neighbours on it, the even one where both are equally near.
As the coarsest grid comes first, the digits found end in no zero. -/
namespace PipelineCache

/-- The value `mantissa * 2 ^ exponent`. -/
structure Binary where
  mantissa : Nat
  exponent : Int

/-- The value `digits * 10 ^ exponent`. -/
structure Decimal where
  digits : Nat
  exponent : Int

/-- The magnitude of a finite double, from its bits. -/
def Binary.ofBits (bits : UInt64) : Binary :=
  let fraction := bits.toNat % Nat.pow 2 52
  let field : Nat := bits.toNat / Nat.pow 2 52 % Nat.pow 2 11
  if field = 0 then ⟨fraction, -1074⟩ else ⟨Nat.pow 2 52 + fraction, (field : Int) - 1075⟩

/-- A quotient of whole numbers, the denominator positive. -/
structure Binary.Ratio where
  num : Nat
  den : Nat

/-- The quotient `n * 2 ^ e * 10 ^ k`. -/
def Binary.ratio (n : Nat) (e k : Int) : Binary.Ratio :=
  ⟨n * Nat.pow 2 e.toNat * Nat.pow 10 k.toNat, Nat.pow 2 (-e).toNat * Nat.pow 10 (-k).toNat⟩

/-- The two ends of the interval of reals that round to `b`, in units of `b`'s last place over four.
A power of two has its lower neighbour half as far away as its upper one. -/
def Binary.ends (b : Binary) : Nat × Nat :=
  if b.mantissa = Nat.pow 2 52 ∧ b.exponent ≠ -1074 then (4 * b.mantissa - 1, 4 * b.mantissa + 2)
  else (4 * b.mantissa - 2, 4 * b.mantissa + 2)

/-- Whether `d * 10 ^ k` rounds to `b`; the ends count when the mantissa is even. -/
def Binary.holds (b : Binary) (d : Nat) (k : Int) : Bool :=
  let (low, high) := b.ends
  let l := Binary.ratio low (b.exponent - 2) (-k)
  let h := Binary.ratio high (b.exponent - 2) (-k)
  if b.mantissa % 2 = 0 then decide (l.num ≤ d * l.den) && decide (d * h.den ≤ h.num)
  else decide (l.num < d * l.den) && decide (d * h.den < h.num)

/-- The neighbour of `b` on the grid of step `10 ^ k` that rounds to `b`, if one does. -/
def Binary.neighbour? (b : Binary) (k : Int) : Option Nat :=
  let r := Binary.ratio b.mantissa b.exponent (-k)
  let below := r.num / r.den
  let twice := 2 * (r.num % r.den)
  let upperNearer := decide (r.den < twice) || (twice == r.den && below % 2 == 1)
  match b.holds below k && decide (0 < below), b.holds (below + 1) k with
  | true, true => some (if upperNearer then below + 1 else below)
  | true, false => some below
  | false, true => some (below + 1)
  | false, false => none

/-- Looks at the grids of step `10 ^ k`, `10 ^ (k - 1)`, … -/
def Binary.search (b : Binary) : Nat → Int → Decimal
  | 0, k => let r := Binary.ratio b.mantissa b.exponent (-k); ⟨r.num / r.den, k⟩
  | n + 1, k =>
    match b.neighbour? k with
    | some d => ⟨d, k⟩
    | none => b.search n (k - 1)

/-- Digits in the whole part, or the count of zeros behind the point, negated. -/
def Binary.magnitude (b : Binary) : Int :=
  let r := Binary.ratio b.mantissa b.exponent 0
  if r.den ≤ r.num then ((Nat.toDigits 10 (r.num / r.den)).length : Int)
  else 1 - ((Nat.toDigits 10 (r.den / r.num)).length : Int)

/-- Seventeen digits are always enough. -/
def Binary.shortest (b : Binary) : Decimal :=
  if b.mantissa = 0 then ⟨0, 0⟩ else b.search 19 b.magnitude

/-- The place of the first digit: 0 for ones, 1 for tens, -1 for tenths. -/
def Decimal.leading (d : Decimal) : Int :=
  d.exponent + ((Nat.toDigits 10 d.digits).length : Int) - 1

/-- Positional digits with a point in any case: `15` at exponent 2 is `1500.0`. -/
def Decimal.positional (d : Decimal) : List Char :=
  let digits := Nat.toDigits 10 d.digits
  if 0 ≤ d.exponent then digits ++ List.replicate d.exponent.toNat '0' ++ ['.', '0']
  else
    let places := (-d.exponent).toNat
    let padded := List.replicate (places + 1 - digits.length) '0' ++ digits
    padded.take (padded.length - places) ++ '.' :: padded.drop (padded.length - places)

/-- One digit before the point and a signed exponent: `15` at exponent 20 is `1.5e+21`. A single
digit has no point. -/
def Decimal.scientific (d : Decimal) : List Char :=
  let digits := Nat.toDigits 10 d.digits
  let point := if digits.length = 1 then [] else ['.']
  let sign := if d.leading < 0 then '-' else '+'
  digits.take 1 ++ point ++ digits.drop 1 ++ 'e' :: sign :: Nat.toDigits 10 d.leading.natAbs

/-- The places of the first digit, from the lowest to the highest, that are written positionally. -/
structure Decimal.Span where
  lowest : Int
  highest : Int

def Decimal.write (span : Span) (d : Decimal) : List Char :=
  if span.lowest ≤ d.leading ∧ d.leading ≤ span.highest then d.positional else d.scientific

/-- The double with these bits, which are those of a finite one. -/
def Decimal.showBits (span : Span) (bits : UInt64) : String :=
  let sign := if Nat.pow 2 63 ≤ bits.toNat then ['-'] else []
  String.ofList (sign ++ (Binary.ofBits bits).shortest.write span)

end PipelineCache
