/-!
# Shortest decimals

A finite double is `m · 2 ^ q`, and the reals that round to it form an interval around it
whose ends belong to it when `m` is even. `Binary.shortest` finds the decimal with the
fewest digits in that interval : for each number of digits it looks at the two decimals of
that many digits next to the value, takes the first count for which one of them lies in
the interval, and of two the nearer (an exact tie goes to the even digit).

Everything is done on natural numbers. A value, its interval and a decimal grid are
compared after multiplication with the denominators.
-/

namespace PiBlocks.Decimal

/-- The positive number `mantissa · 2 ^ exponent`. `closeBelow` tells that the next smaller
double is half as far away as the next larger one. -/
structure Binary where
  mantissa : Nat
  exponent : Int
  closeBelow : Bool
deriving DecidableEq, Repr

/-- A decimal `digits · 10 ^ exponent`. -/
structure Digits where
  digits : Nat
  exponent : Int
deriving DecidableEq, Repr

/-- Sign bit and magnitude of a double ; `none` for zero, infinities and not-a-number. -/
def ofBits (bits : UInt64) : Bool × Option Binary :=
  let n : Nat := bits.toNat
  let negative := decide (n / Nat.pow 2 63 = 1)
  let biased : Nat := n / Nat.pow 2 52 % Nat.pow 2 11
  let fraction : Nat := n % Nat.pow 2 52
  if biased = 2047 then (negative, none)
  else if biased = 0 then
    (negative, if fraction = 0 then none else some ⟨fraction, -1074, false⟩)
  else (negative, some ⟨Nat.pow 2 52 + fraction, (biased : Int) - 1075,
    decide (fraction = 0 ∧ 1 < biased)⟩)

/-- `base ^ e` as a fraction. -/
def power (base : Nat) (e : Int) : Nat × Nat :=
  if 0 ≤ e then (Nat.pow base e.toNat, 1) else (1, Nat.pow base (-e).toNat)

namespace Binary

/-- A quarter of the unit of the last place, the step in which the interval is measured. -/
def quarter (b : Binary) : Nat × Nat := power 2 (b.exponent - 2)

/-- Whether `a · 10 ^ k` is at most the value. -/
def reaches (b : Binary) (k : Int) : Bool :=
  let v := power 2 b.exponent
  let p := power 10 k
  p.1 * v.2 ≤ b.mantissa * v.1 * p.2

/-- The exponent of the leading decimal digit : `10 ^ k ≤ value < 10 ^ (k + 1)`. The first
guess comes from the binary exponent and is off by one at most. -/
def magnitude (b : Binary) : Int :=
  let guess := ((Nat.log2 b.mantissa : Int) + b.exponent) * 30103 / 100000
  if b.reaches (guess + 1) then guess + 1
  else if b.reaches guess then guess
  else guess - 1

/-- Whether `n · 10 ^ k` rounds to the value. -/
def holds (b : Binary) (n : Nat) (k : Int) : Bool :=
  let u := b.quarter
  let p := power 10 k
  let point := n * p.1 * u.2
  let scale := u.1 * p.2
  let low := (4 * b.mantissa - (if b.closeBelow then 1 else 2)) * scale
  let high := (4 * b.mantissa + 2) * scale
  if b.mantissa % 2 = 0 then low ≤ point && point ≤ high else low < point && point < high

/-- The best decimal that is a multiple of `10 ^ k`, if one rounds to the value. -/
def onGrid (b : Binary) (k : Int) : Option Digits :=
  let v := power 2 b.exponent
  let p := power 10 k
  let numerator := b.mantissa * v.1 * p.2
  let denominator := v.2 * p.1
  let below := numerator / denominator
  let rest := 2 * (numerator % denominator)
  let nearer :=
    if rest < denominator then below
    else if denominator < rest then below + 1
    else if below % 2 = 0 then below else below + 1
  let other := if nearer = below then below + 1 else below
  if b.holds nearer k then some ⟨nearer, k⟩
  else if b.holds other k then some ⟨other, k⟩
  else none

/-- The decimal with the fewest digits that rounds to the value. Seventeen digits always
suffice. -/
def shortest (b : Binary) : Digits :=
  let k := b.magnitude
  match (List.range 17).findSome? fun count => b.onGrid (k - Int.ofNat count) with
  | some found => found
  | none => ⟨0, 0⟩

end Binary

/-- The digits of a natural number without the zeros at its end, and how many there were. -/
def stripZeros : List Char → List Char × Nat
  | [] => ([], 0)
  | c :: rest =>
    match stripZeros rest with
    | ([], zeros) => if c = '0' then ([], zeros + 1) else ([c], zeros)
    | (kept, zeros) => (c :: kept, zeros)

end PiBlocks.Decimal
