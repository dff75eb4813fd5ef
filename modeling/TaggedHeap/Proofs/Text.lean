import Mathlib.Data.List.Induction
import Mathlib.Data.List.TakeWhile
import Mathlib.Data.Nat.Digits.Defs
import TaggedHeap.Fault
import TaggedHeap.Text.Blank
import TaggedHeap.Text.Lines
import TaggedHeap.Text.Numeral

/-! # What the parts of a text are

Lines, trimmed lines, words and numerals, each described by how a text is put together from its
parts. Every text can be taken apart in this way, and the functions that take texts apart find
those parts.
-/

namespace TaggedHeap.Text

variable {cs rest line word gap : List Char}

/-- The lines of a text. A return in front of a feed belongs to the end of the line, any other
return to the line. -/
inductive Lines : List Char → List (List Char) → Prop where
  | none : Lines [] []
  | last {line : List Char} (hLine : line ≠ []) (hFeed : '\n' ∉ line) : Lines line [line]
  | feed {line rest : List Char} {ls : List (List Char)} (hFeed : '\n' ∉ line)
      (hReturn : line.getLast? ≠ some '\r') (hRest : Lines rest ls) :
      Lines (line ++ '\n' :: rest) (line :: ls)
  | returnFeed {line rest : List Char} {ls : List (List Char)} (hFeed : '\n' ∉ line)
      (hRest : Lines rest ls) : Lines (line ++ '\r' :: '\n' :: rest) (line :: ls)

theorem foldr_consLine_feed (hFeed : '\n' ∉ line) (hReturn : line.getLast? ≠ some '\r') :
    (line ++ '\n' :: rest).foldr consLine ([], false) = (line :: lines rest, line.isEmpty) := by
  induction line with
  | nil => rfl
  | cons c line ih =>
    have hc : c ≠ '\n' := fun h => hFeed (h ▸ List.mem_cons_self)
    have hLast : ¬ (c = '\r' ∧ line.isEmpty) := by
      rintro ⟨rfl, hEmpty⟩
      rw [List.isEmpty_iff.1 hEmpty] at hReturn
      exact hReturn rfl
    have hRest : line.getLast? ≠ some '\r' := fun h => by
      simp [List.getLast?_cons, h] at hReturn
    rw [List.cons_append, List.foldr_cons, ih (fun h => hFeed (List.mem_cons_of_mem _ h)) hRest,
      consLine, if_neg hc, if_neg hLast]
    rfl

theorem foldr_consLine_returnFeed (hFeed : '\n' ∉ line) :
    (line ++ '\r' :: '\n' :: rest).foldr consLine ([], false) = (line :: lines rest, false) := by
  induction line with
  | nil => rfl
  | cons c line ih =>
    have hc : c ≠ '\n' := fun h => hFeed (h ▸ List.mem_cons_self)
    rw [List.cons_append, List.foldr_cons, ih (fun h => hFeed (List.mem_cons_of_mem _ h)),
      consLine, if_neg hc, if_neg (by simp)]
    rfl

theorem Lines.lines_eq {ls : List (List Char)} (h : Lines cs ls) : lines cs = ls := by
  induction h with
  | none => rfl
  | last hLine hFeed => rw [lines_of_no_feed hFeed, if_neg hLine]
  | feed hFeed hReturn _ ih => rw [lines, foldr_consLine_feed hFeed hReturn, ih]
  | returnFeed hFeed _ ih => rw [lines, foldr_consLine_returnFeed hFeed, ih]

theorem Lines.exists (cs : List Char) : ∃ ls, Lines cs ls := by
  induction cs using (measure List.length).wf.induction with
  | h cs ih =>
    by_cases hFeed : '\n' ∈ cs
    · obtain ⟨line, rest, rfl, hLine⟩ := List.eq_append_cons_of_mem hFeed
      obtain ⟨ls, hRest⟩ := ih rest (by
        change rest.length < (line ++ '\n' :: rest).length
        simp only [List.length_append, List.length_cons]
        omega)
      by_cases hReturn : line.getLast? = some '\r'
      · obtain ⟨start, rfl⟩ := List.getLast?_eq_some_iff.1 hReturn
        refine ⟨start :: ls, ?_⟩
        rw [List.append_assoc]
        exact .returnFeed (fun h => hLine (List.mem_append_left _ h)) hRest
      · exact ⟨line :: ls, .feed hLine hReturn hRest⟩
    · cases cs with
      | nil => exact ⟨[], .none⟩
      | cons c cs => exact ⟨[c :: cs], .last (by simp) hFeed⟩

theorem lines_eq_iff {ls : List (List Char)} : lines cs = ls ↔ Lines cs ls := by
  constructor
  · rintro rfl
    obtain ⟨ls, h⟩ := Lines.exists cs
    rwa [h.lines_eq]
  · exact Lines.lines_eq

/-- The second text is the first without the blanks at its two ends. -/
def Trimmed (cs t : List Char) : Prop :=
  ∃ before after, cs = before ++ (t ++ after) ∧ (∀ c ∈ before, isBlank c) ∧
    (∀ c ∈ after, isBlank c) ∧ (∀ c ∈ t.head?, ¬ isBlank c) ∧ ∀ c ∈ t.getLast?, ¬ isBlank c

theorem dropWhile_append_of_all {p : Char → Bool} (h : ∀ c ∈ gap, p c) :
    (gap ++ rest).dropWhile p = rest.dropWhile p := by
  rw [List.dropWhile_append, List.dropWhile_eq_nil_iff.2 h]
  rfl

theorem dropWhile_of_head {p : Char → Bool} (h : ∀ c ∈ cs.head?, ¬ p c) :
    cs.dropWhile p = cs := by
  cases cs with
  | nil => rfl
  | cons c cs => exact List.dropWhile_cons_of_neg (h c rfl)

theorem exists_run (p : Char → Bool) (cs : List Char) :
    ∃ run rest, cs = run ++ rest ∧ (∀ c ∈ run, p c) ∧ ∀ c ∈ rest.head?, ¬ p c := by
  refine ⟨cs.takeWhile p, cs.dropWhile p, List.takeWhile_append_dropWhile.symm,
    fun c => List.mem_takeWhile_imp, fun c hc hp => ?_⟩
  have hNot := List.head?_dropWhile_not p cs
  rw [Option.mem_def.1 hc] at hNot
  simp [hp] at hNot

theorem Trimmed.trim_eq {t : List Char} (h : Trimmed cs t) : trim cs = t := by
  obtain ⟨before, after, rfl, hBefore, hAfter, hHead, hLast⟩ := h
  rw [trim, dropWhile_append_of_all hBefore]
  cases t with
  | nil => simp [List.dropWhile_eq_nil_iff.2 hAfter]
  | cons c t =>
    have hStart : ((c :: t) ++ after).dropWhile isBlank = (c :: t) ++ after :=
      dropWhile_of_head fun d hd => hHead d hd
    rw [hStart, List.reverse_append, dropWhile_append_of_all (by simpa using hAfter),
      dropWhile_of_head (by simpa only [List.head?_reverse] using hLast), List.reverse_reverse]

theorem Trimmed.exists (cs : List Char) : ∃ t, Trimmed cs t := by
  obtain ⟨before, start, rfl, hBefore, hStart⟩ := exists_run isBlank cs
  obtain ⟨after, t, hText, hAfter, hLast⟩ := exists_run isBlank start.reverse
  rw [List.reverse_eq_iff, List.reverse_append] at hText
  subst hText
  refine ⟨t.reverse, before, after.reverse, rfl, hBefore, by simpa using hAfter, ?_,
    by simpa using hLast⟩
  intro c hc
  exact hStart c (by rw [List.head?_append, Option.mem_def.1 hc]; rfl)

theorem trim_eq_iff {t : List Char} : trim cs = t ↔ Trimmed cs t := by
  constructor
  · rintro rfl
    obtain ⟨t, h⟩ := Trimmed.exists cs
    rwa [h.trim_eq]
  · exact Trimmed.trim_eq

/-- The words of a text: what is not blank, as far as it goes without a blank. -/
inductive Words : List Char → List (List Char) → Prop where
  | none {gap : List Char} (hGap : ∀ c ∈ gap, isBlank c) : Words gap []
  | word {gap word rest : List Char} {ws : List (List Char)} (hGap : ∀ c ∈ gap, isBlank c)
      (hWord : word ≠ []) (hInk : ∀ c ∈ word, ¬ isBlank c) (hEnd : ∀ c ∈ rest.head?, isBlank c)
      (hRest : Words rest ws) : Words (gap ++ (word ++ rest)) (word :: ws)

theorem isInk_iff {c : Char} : isInk c ↔ ¬ isBlank c := by simp [isInk]

theorem span_ink (hInk : ∀ c ∈ word, ¬ isBlank c) (hEnd : ∀ c ∈ rest.head?, isBlank c) :
    (word ++ rest).takeWhile isInk = word ∧ (word ++ rest).dropWhile isInk = rest := by
  have hWord : ∀ c ∈ word, isInk c := fun c hc => isInk_iff.2 (hInk c hc)
  have hRest : ∀ c ∈ rest.head?, ¬ isInk c := fun c hc h => isInk_iff.1 h (hEnd c hc)
  have hDrop : (word ++ rest).dropWhile isInk = rest := by
    rw [dropWhile_append_of_all hWord, dropWhile_of_head hRest]
  refine ⟨?_, hDrop⟩
  have hAll := List.takeWhile_append_dropWhile (p := isInk) (l := word ++ rest)
  rw [hDrop] at hAll
  exact List.append_cancel_right hAll

theorem Words.words_eq {ws : List (List Char)} (h : Words cs ws) : words cs = ws := by
  induction h with
  | none hGap => exact words_of_blank (List.dropWhile_eq_nil_iff.2 hGap)
  | @word gap word rest ws hGap hWord hInk hEnd _ ih =>
    cases word with
    | nil => exact absurd rfl hWord
    | cons c word =>
      have hStart : (gap ++ (c :: word ++ rest)).dropWhile isBlank = c :: (word ++ rest) := by
        rw [dropWhile_append_of_all hGap]
        exact List.dropWhile_cons_of_neg (hInk c List.mem_cons_self)
      obtain ⟨hTake, hDrop⟩ := span_ink (fun d hd => hInk d (List.mem_cons_of_mem _ hd)) hEnd
      rw [words_of_ink hStart, hTake, hDrop, ih]

theorem Words.exists (cs : List Char) : ∃ ws, Words cs ws := by
  induction cs using (measure List.length).wf.induction with
  | h cs ih =>
    obtain ⟨gap, text, rfl, hGap, hText⟩ := exists_run isBlank cs
    cases text with
    | nil => exact ⟨[], by simpa using Words.none hGap⟩
    | cons c text =>
      obtain ⟨word, rest, rfl, hWord, hEnd⟩ := exists_run isInk text
      obtain ⟨ws, hRest⟩ := ih rest (by
        change rest.length < (gap ++ c :: (word ++ rest)).length
        simp only [List.length_append, List.length_cons]
        omega)
      refine ⟨(c :: word) :: ws, .word hGap (List.cons_ne_nil c word) ?_ ?_ hRest⟩
      · intro d hd
        cases hd with
        | head => exact hText c rfl
        | tail _ hd => exact isInk_iff.1 (hWord d hd)
      · intro d hd
        simpa [isInk_iff] using hEnd d hd

theorem words_eq_iff {ws : List (List Char)} : words cs = ws ↔ Words cs ws := by
  constructor
  · rintro rfl
    obtain ⟨ws, h⟩ := Words.exists cs
    rwa [h.words_eq]
  · exact Words.words_eq

/-- The text is a numeral for a number: an optional plus sign, and the decimal digits of a word. -/
def Spells (cs : List Char) (n : Nat) : Prop :=
  ∃ digits, (cs = digits ∨ cs = '+' :: digits) ∧ digits ≠ [] ∧ (∀ c ∈ digits, c.isDigit) ∧
    n = Nat.ofDigits 10 (digits.reverse.map fun c => c.toNat - '0'.toNat) ∧ n < 2 ^ 64

theorem digitsValue_eq_ofDigits (digits : List Char) :
    digitsValue digits =
      Nat.ofDigits 10 (digits.reverse.map fun c => c.toNat - '0'.toNat) := by
  induction digits using List.reverseRecOn with
  | nil => rfl
  | append_singleton digits c ih =>
    rw [digitsValue, List.foldl_append, ← digitsValue, ih, List.reverse_concat, List.map_cons,
      Nat.ofDigits_cons]
    simp only [List.foldl_cons, List.foldl_nil, addDigit]
    exact Nat.add_comm _ _

theorem numeral?_eq_some_iff_spells {n : Nat} : numeral? cs = some n ↔ Spells cs n := by
  rw [numeral?_eq_some_iff]
  constructor
  · rintro ⟨hDigits, hAll, rfl, hBound⟩
    refine ⟨unsigned cs, ?_, hDigits, hAll, digitsValue_eq_ofDigits _, hBound⟩
    unfold unsigned
    split
    · exact .inr rfl
    · exact .inl rfl
  · rintro ⟨digits, hText, hDigits, hAll, hValue, hBound⟩
    have hUnsigned : unsigned cs = digits := by
      obtain rfl | rfl := hText
      · unfold unsigned
        split
        · exact absurd (hAll '+' List.mem_cons_self) (by decide)
        · rfl
      · rfl
    rw [← digitsValue_eq_ofDigits] at hValue
    rw [hUnsigned]
    exact ⟨hDigits, hAll, hValue.symm, hBound⟩

theorem Spells.unique {m n : Nat} (h : Spells cs m) (h' : Spells cs n) : m = n :=
  Option.some.inj ((numeral?_eq_some_iff_spells.2 h).symm.trans (numeral?_eq_some_iff_spells.2 h'))

end TaggedHeap.Text
