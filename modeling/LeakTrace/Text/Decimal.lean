/-!
# Decimal text of floating-point numbers

A finite double stands for an interval of reals: those that round to it. `Binary.shortest` picks
the decimal with the fewest digits in that interval, and of several the one closest to the value.
The search is on exact natural-number arithmetic: for one digit, two digits and so on it tests the
two neighbours of the value on the grid of that many digits.

**Digits and layout are separate.** The digits are the same everywhere; `Decimal.compact` lays them
out for data files, `Decimal.plain` for messages.
-/

namespace LeakTrace

/-- The number `digits * 10 ^ exp`. -/
structure Decimal where
  digits : Nat
  exp : Int
deriving DecidableEq, Repr, Inhabited

/-- A finite number `m * 2 ^ q` as a double stores it. -/
structure Binary where
  m : Nat
  q : Int
  /-- The gap to the number below is half the gap to the number above. -/
  narrowBelow : Bool
deriving Repr, Inhabited

/-- Which of two equally close decimals is taken. -/
inductive Tie where
  | even
  | up
deriving DecidableEq, Repr

namespace Binary

/-- The magnitude in the bits of a finite double. -/
def ofBits (b : UInt64) : Binary :=
  let e := ((b >>> 52) &&& 0x7FF).toNat
  let f := (b &&& 0xFFFFFFFFFFFFF).toNat
  if e == 0 then ⟨f, -1074, false⟩ else ⟨Nat.pow 2 52 + f, (e : Int) - 1075, f == 0 && e > 1⟩

/-- Compares `a * 10 ^ i` with `n * 2 ^ j`. -/
def compareScaled (a : Nat) (i : Int) (n : Nat) (j : Int) : Ordering :=
  compare (a * Nat.pow 10 i.toNat * Nat.pow 2 (-j).toNat)
    (n * Nat.pow 2 j.toNat * Nat.pow 10 (-i).toNat)

/-- The decimal is among the reals that round to `x`. The ends of the interval belong to the even
number of two neighbours. -/
def readsBack (x : Binary) (d : Decimal) : Bool :=
  let low := if x.narrowBelow then 4 * x.m - 1 else 4 * x.m - 2
  let fromLow := compareScaled d.digits d.exp low (x.q - 2)
  let fromHigh := compareScaled d.digits d.exp (4 * x.m + 2) (x.q - 2)
  let even := x.m % 2 == 0
  (fromLow == .gt || (even && fromLow == .eq)) && (fromHigh == .lt || (even && fromHigh == .eq))

/-- The least `k` with `x < 10 ^ k`, for `x` not zero. -/
def scale (x : Binary) : Int :=
  let guess := (((x.m.log2 : Int) + x.q) * 30103).fdiv 100000
  (([guess - 1, guess, guess + 1].find? fun k => compareScaled 1 k x.m x.q == .gt)).getD (guess + 2)

/-- The largest multiple of `10 ^ e` up to `x`, counted in units of `10 ^ e`. -/
def floorAt (x : Binary) (e : Int) : Nat :=
  (x.m * Nat.pow 2 x.q.toNat * Nat.pow 10 (-e).toNat) /
    (Nat.pow 2 (-x.q).toNat * Nat.pow 10 e.toNat)

/-- A neighbour of `x` on the grid of multiples of `10 ^ e` that reads back, the closer first. -/
def onGrid? (tie : Tie) (x : Binary) (e : Int) : Option Decimal :=
  let below : Decimal := ⟨x.floorAt e, e⟩
  let above : Decimal := ⟨x.floorAt e + 1, e⟩
  match x.readsBack below, x.readsBack above with
  | true, true =>
    match compareScaled (below.digits + above.digits) e (2 * x.m) x.q with
    | .gt => some below
    | .lt => some above
    | .eq => some (if tie == .even && below.digits % 2 == 0 then below else above)
  | true, false => some below
  | false, true => some above
  | false, false => none

/-- Moves trailing zeros of the digits into the exponent. -/
def strip : Nat → Decimal → Decimal
  | 0, d => d
  | n + 1, d => if d.digits % 10 == 0 then strip n ⟨d.digits / 10, d.exp + 1⟩ else d

/-- The shortest decimal that reads back as `x`. Seventeen digits always suffice. -/
def shortest (tie : Tie) (x : Binary) : Decimal :=
  if x.m == 0 then ⟨0, 0⟩
  else
    let k := x.scale
    match (List.range 18).findSome? fun n => x.onGrid? tie (k - (n + 1 : Nat)) with
    | some d => strip 20 d
    | none => ⟨x.m * Nat.pow 5 (-x.q).toNat * Nat.pow 2 x.q.toNat, if x.q < 0 then x.q else 0⟩

end Binary

namespace Decimal

private def zeros (n : Nat) : String := String.ofList (List.replicate n '0')

/-- Digits with a point `n` places from the left. -/
private def pointAt (ds : List Char) (n : Nat) : String :=
  String.ofList (ds.take n) ++ "." ++ String.ofList (ds.drop n)

/-- The layout of data files: a point or an exponent is always there, and numbers from `10 ^ 16` on
or below `10 ^ -5` have an exponent. -/
def compact (d : Decimal) : String :=
  if d.digits == 0 then "0.0"
  else
    let ds := Nat.toDigits 10 d.digits
    let point : Int := ds.length + d.exp
    if 0 ≤ d.exp && point ≤ 16 then String.ofList ds ++ zeros d.exp.toNat ++ ".0"
    else if 0 < point && point ≤ 16 then pointAt ds point.toNat
    else if -5 < point && point ≤ 0 then "0." ++ zeros (-point).toNat ++ String.ofList ds
    else
      (if ds.length == 1 then String.ofList ds else pointAt ds 1) ++ "e" ++ toString (point - 1)

/-- The layout of messages: never an exponent, and no point unless there are places after it. -/
def plain (d : Decimal) : String :=
  if d.digits == 0 then "0"
  else
    let ds := Nat.toDigits 10 d.digits
    let point : Int := ds.length + d.exp
    if 0 ≤ d.exp then String.ofList ds ++ zeros d.exp.toNat
    else if 0 < point then pointAt ds point.toNat
    else "0." ++ zeros (-point).toNat ++ String.ofList ds

end Decimal

/-- How numbers are written: which digits, how they are laid out, and the words for what is no
number. -/
structure NumberStyle where
  tie : Tie
  layout : Decimal → String
  nan : String
  infinity : String

namespace NumberStyle

def message : NumberStyle := ⟨.up, Decimal.plain, "NaN", "inf"⟩

def yaml : NumberStyle := ⟨.even, Decimal.compact, ".nan", ".inf"⟩

/-- Data without a way to write what is no number. -/
def json : NumberStyle := ⟨.even, Decimal.compact, "null", "null"⟩

def write (style : NumberStyle) (f : Float) : String :=
  let bits := f.toBits
  let sign := if bits >>> 63 == 1 then "-" else ""
  if f.isNaN then style.nan
  else if f.isInf then if style.infinity == "null" then "null" else sign ++ style.infinity
  else sign ++ style.layout ((Binary.ofBits bits).shortest style.tie)

end NumberStyle
end LeakTrace
