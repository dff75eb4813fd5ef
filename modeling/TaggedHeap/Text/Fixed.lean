/-!
# Fixed places

Writing a float with a fixed number of decimal places. The exact value is rounded, and a tie goes to
the even neighbour.
-/

namespace TaggedHeap.Text

/-- The integer nearest to a fraction, the even one of two that are equally near. -/
def roundDiv (num den : Nat) : Nat :=
  let floor := num / den
  let rest := num % den
  if 2 * rest < den ∨ (2 * rest = den ∧ floor % 2 = 0) then floor else floor + 1

/-- The magnitude of a finite float is this number divided by `2 ^ 1075`. -/
def scaledMagnitude (x : Float) : Nat :=
  let bits := x.toBits.toNat
  let fraction := bits % 2 ^ 52
  let exponent := bits / 2 ^ 52 % 2 ^ 11
  if exponent = 0 then fraction * 2 else (2 ^ 52 + fraction) <<< exponent

/-- Fills a text up from the left. -/
def alignRight (width : Nat) (s : String) (fill : Char) : String :=
  "".pushn fill (width - s.length) ++ s

/-- Fills a text up from the right. -/
def alignLeft (width : Nat) (s : String) (fill : Char) : String :=
  s.pushn fill (width - s.length)

/-- A finite float that is not negative, with a number of decimal places; without any there is no
point either. -/
def fixed (places : Nat) (x : Float) : String :=
  let unit := Nat.pow 10 places
  let scaled := roundDiv (scaledMagnitude x * unit) (2 ^ 1075)
  if places = 0 then toString scaled
  else toString (scaled / unit) ++ "." ++ alignRight places (toString (scaled % unit)) '0'

end TaggedHeap.Text
