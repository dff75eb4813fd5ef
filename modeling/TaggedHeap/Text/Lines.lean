/-!
# Lines

A line ends at a line feed, and a carriage return before that line feed belongs to the end as well.
What follows the last line feed is a line too, unless it is empty.
-/

namespace TaggedHeap.Text

/-- Puts a character in front of the first line. -/
def consFirst (c : Char) : List (List Char) → List (List Char)
  | [] => [[c]]
  | line :: rest => (c :: line) :: rest

/-- Puts a character in front of a text, of which the lines are given and whether it starts with a
line feed. -/
def consLine (c : Char) (after : List (List Char) × Bool) : List (List Char) × Bool :=
  if c = '\n' then ([] :: after.1, true)
  else if c = '\r' ∧ after.2 then (after.1, false)
  else (consFirst c after.1, false)

/-- The lines of a text, without their ends. -/
def lines (cs : List Char) : List (List Char) :=
  (cs.foldr consLine ([], false)).1

theorem lines_of_no_feed {cs : List Char} (h : '\n' ∉ cs) :
    lines cs = if cs = [] then [] else [cs] := by
  suffices cs.foldr consLine ([], false) = (if cs = [] then [] else [cs], false) by
    rw [lines, this]
  induction cs with
  | nil => rfl
  | cons c rest ih =>
    obtain ⟨first, later⟩ := not_or.1 (mt List.mem_cons.2 h)
    rw [List.foldr_cons, ih later, consLine, if_neg (Ne.symm first), if_neg (by simp)]
    cases rest with
    | nil => rfl
    | cons d rest => rfl

end TaggedHeap.Text
