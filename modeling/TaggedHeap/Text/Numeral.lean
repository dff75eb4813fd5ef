/-!
# Numerals

A numeral is one or more ASCII digits, perhaps after one plus sign, with a value below `2 ^ 64`.
Leading zeros are allowed.
-/

namespace TaggedHeap.Text

/-- The number that a digit adds to the digits before it. -/
def addDigit (value : Nat) (c : Char) : Nat := 10 * value + (c.toNat - 48)

def digitsValue (cs : List Char) : Nat := cs.foldl addDigit 0

/-- A numeral without its sign. -/
def unsigned : List Char → List Char
  | '+' :: cs => cs
  | cs => cs

/-- The value of a numeral. -/
def numeral? (cs : List Char) : Option Nat :=
  let digits := unsigned cs
  if digits ≠ [] ∧ digits.all Char.isDigit ∧ digitsValue digits < 2 ^ 64 then
    some (digitsValue digits)
  else none

theorem numeral?_eq_some_iff {cs : List Char} {n : Nat} :
    numeral? cs = some n ↔
      unsigned cs ≠ [] ∧ (∀ c ∈ unsigned cs, c.isDigit = true) ∧
        digitsValue (unsigned cs) = n ∧ n < 2 ^ 64 := by
  simp only [numeral?, List.all_eq_true]
  grind

end TaggedHeap.Text
