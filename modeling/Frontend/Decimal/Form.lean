import Frontend.Decimal.Shortest

/-!
How floating-point numbers are written: with the shortest digits that read back, positionally while
the number is neither very large nor very small, and otherwise with a power of ten. A number written
positionally always has a fraction, so it cannot be taken for an integer.
-/

namespace Frontend.Decimal

/-- The scientific exponents of the numbers that are written positionally. -/
structure Form where
  least : Int
  greatest : Int
  deriving DecidableEq, Repr

/-- Floats are shown positionally from 10^-4 up to below 10^16. -/
def Form.shown : Form := ⟨-4, 15⟩

/-- Digits with the decimal point after `point` of them, zeros filled in on either side. -/
def positional (digits : List Char) (point : Int) : List Char :=
  if point ≤ 0 then '0' :: '.' :: List.replicate (-point).toNat '0' ++ digits
  else
    let n := point.toNat
    if digits.length ≤ n then digits ++ List.replicate (n - digits.length) '0' ++ ['.', '0']
    else digits.take n ++ '.' :: digits.drop n

/-- Digits with the point after the first of them, `e` and the power of ten. -/
def scientific (digits : List Char) (exponent : Int) : List Char :=
  digits.take 1 ++ (if digits.length ≤ 1 then [] else '.' :: digits.drop 1) ++
    'e' :: (toString exponent).toList

namespace Form

/-- A decimal in this form. -/
def write (form : Form) (s : Scaled) : List Char :=
  let digits := Nat.toDigits 10 s.digits
  let exponent := (digits.length : Int) + s.exponent - 1
  if form.least ≤ exponent && exponent ≤ form.greatest then positional digits (exponent + 1)
  else scientific digits exponent

/-- A float in this form, with `inf` and `NaN` for what is no number. Zero keeps its sign. -/
def text (form : Form) (x : Float) : String :=
  if x.isNaN then "NaN"
  else
    let bits := x.toBits
    let sign := if bits.toNat / twoTo 63 = 1 then ['-'] else []
    let magnitude :=
      if x.isInf then ['i', 'n', 'f']
      else if x == 0 then ['0', '.', '0']
      else form.write (Binary.ofBits bits).shortest
    String.ofList (sign ++ magnitude)

end Form

/-- The text of a float as shown to a reader. -/
def floatText (x : Float) : String := Form.shown.text x

end Frontend.Decimal
