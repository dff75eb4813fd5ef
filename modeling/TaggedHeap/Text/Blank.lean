/-!
# Blanks

The characters with the Unicode property White_Space, and the words between them.
-/

namespace TaggedHeap.Text

/-- The ranges of the blanks, both ends included. -/
def blankRanges : List (Nat × Nat) :=
  [(0x9, 0xd), (0x20, 0x20), (0x85, 0x85), (0xa0, 0xa0), (0x1680, 0x1680), (0x2000, 0x200a),
    (0x2028, 0x2029), (0x202f, 0x202f), (0x205f, 0x205f), (0x3000, 0x3000)]

def isBlank (c : Char) : Bool :=
  blankRanges.any fun (first, last) => first ≤ c.toNat && c.toNat ≤ last

def isInk (c : Char) : Bool := !isBlank c

/-- The text without the blanks at its two ends. -/
def trim (cs : List Char) : List Char :=
  ((cs.dropWhile isBlank).reverse.dropWhile isBlank).reverse

theorem length_dropWhile_le {α : Type} (p : α → Bool) (l : List α) :
    (l.dropWhile p).length ≤ l.length :=
  (List.dropWhile_sublist p).length_le

/-- The longest runs of characters that are not blank. -/
def words (cs : List Char) : List (List Char) :=
  match _shape : cs.dropWhile isBlank with
  | [] => []
  | c :: rest => (c :: rest.takeWhile isInk) :: words (rest.dropWhile isInk)
termination_by cs.length
decreasing_by
  have whole := length_dropWhile_le isBlank cs
  have part := length_dropWhile_le isInk rest
  rw [_shape, List.length_cons] at whole
  omega

theorem words_of_blank {cs : List Char} (h : cs.dropWhile isBlank = []) : words cs = [] := by
  rw [words]
  split
  · rfl
  · rename_i shape
    rw [h] at shape
    cases shape

theorem words_of_ink {cs rest : List Char} {c : Char} (h : cs.dropWhile isBlank = c :: rest) :
    words cs = (c :: rest.takeWhile isInk) :: words (rest.dropWhile isInk) := by
  rw [words]
  split
  · rename_i shape
    rw [h] at shape
    cases shape
  · rename_i shape
    rw [h] at shape
    cases shape
    rfl

end TaggedHeap.Text
