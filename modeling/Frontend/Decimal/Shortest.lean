/-!
The shortest decimal of a binary floating-point number: of all decimals that read back as the
number, those with the fewest digits, and of these the nearest. All comparisons are exact, in
natural numbers. The coarsest decimal grid on which a neighbour of the number reads back as the
number gives the fewest digits, since a grid with any such point also has one next to the number.
-/

namespace Frontend.Decimal

/-- A finite positive binary number `significand · 2^exponent`. `isLeast` marks the least
significand of its binade, below which numbers lie twice as dense. -/
structure Binary where
  significand : Nat
  exponent : Int
  isLeast : Bool
  deriving DecidableEq, Repr

/-- The decimal `digits · 10^exponent`. -/
structure Scaled where
  digits : Nat
  exponent : Int
  deriving DecidableEq, Repr

/-- A power of two. -/
def twoTo (n : Nat) : Nat := Nat.pow 2 n

/-- A power of ten. -/
def tenTo (n : Nat) : Nat := Nat.pow 10 n

namespace Binary

/-- The magnitude of a finite double with these bits, of which the sign is ignored. -/
def ofBits (bits : UInt64) : Binary :=
  let n := bits.toNat
  let fraction : Nat := n % twoTo 52
  let field : Nat := n / twoTo 52 % twoTo 11
  if field = 0 then ⟨fraction, -1074, false⟩
  else ⟨twoTo 52 + fraction, (field : Int) - 1075, decide (fraction = 0 ∧ 1 < field)⟩

/-- A power of ten above the number: its exponent, at most two too large. -/
def exponentAbove (b : Binary) : Int :=
  ((b.significand.log2 : Int) + 1 + b.exponent) * 30103 / 100000 + 1

/-- A quarter of the last binary place, in the measure in which it and `10^g` are both whole. -/
def quarter (b : Binary) (g : Int) : Nat := twoTo (b.exponent - 2).toNat * tenTo (-g).toNat

/-- The step `10^g`, in the same measure. -/
def step (b : Binary) (g : Int) : Nat := twoTo (2 - b.exponent).toNat * tenTo g.toNat

/-- The number, in the same measure. -/
def value (b : Binary) (g : Int) : Nat := 4 * b.significand * b.quarter g

/-- On the decimal grid of step `10^g`, the neighbour that reads back as the number, if any does.
Of two the nearer is taken, and the upper one if both are equally near. What reads back as the
number begins two quarters before it (one before the least significand) and ends two after it; these
ends belong to it if its significand is even. -/
def onGrid (b : Binary) (g : Int) : Option Scaled :=
  let quarter := b.quarter g
  let step := b.step g
  let value := b.value g
  let low := value - (if b.isLeast then quarter else 2 * quarter)
  let high := value + 2 * quarter
  let d := value / step
  let closed := b.significand % 2 == 0
  let downFits := low < d * step || (closed && low == d * step)
  let upFits := (d + 1) * step < high || (closed && (d + 1) * step == high)
  let nearerUp := step ≤ 2 * (value - d * step)
  if upFits && (!downFits || nearerUp) then some ⟨d + 1, g⟩
  else if downFits then some ⟨d, g⟩
  else none

/-- The first hit on the `n` grids from `10^g` downward; the number's floor on the next grid if
there is none. -/
def descend (b : Binary) : Nat → Int → Scaled
  | 0, g => ⟨b.value g / b.step g, g⟩
  | n + 1, g => (b.onGrid g).getD (b.descend n (g - 1))

/-- The shortest decimal that reads back as the number, and of these the nearest. Seventeen digits
always suffice, so no more grids than these are tried. -/
def shortest (b : Binary) : Scaled := b.descend 20 b.exponentAbove

end Binary

end Frontend.Decimal
