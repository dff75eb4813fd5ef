import Mathlib.Data.List.Forall2
import TaggedHeap.Fault
import TaggedHeap.Proofs.Text
import TaggedHeap.Trace.Reader

/-! # The grammar of traces

`Reads` says which texts are traces, and which trace each of them is, by what the lines, words and
numerals of the text are; no function that reads a text occurs in it. `parse_exact` is that the
texts that can be read are those, and that reading one gives that trace.
-/

namespace TaggedHeap.Trace

open Text

/-- The lines from a number on that are not blank: the number of each, and its trimmed text. -/
inductive Listing : Nat → List (List Char) → List Entry → Prop where
  | none {n : Nat} : Listing n [] []
  | blank {n : Nat} {line : List Char} {ls : List (List Char)} {es : List Entry}
      (hLine : Trimmed line []) (hRest : Listing (n + 1) ls es) : Listing n (line :: ls) es
  | entry {n : Nat} {line text : List Char} {ls : List (List Char)} {es : List Entry}
      (hLine : Trimmed line text) (hText : text ≠ []) (hRest : Listing (n + 1) ls es) :
      Listing n (line :: ls) ((n, text) :: es)

/-- The operation that a line stands for, and the number of the line. -/
inductive OperationLine (numIds : Nat) : Entry → Nat × Op → Prop where
  | allocate {line id size : Nat} {text idWord sizeWord : List Char} {more : List (List Char)}
      (hWords : Words text (['a'] :: idWord :: sizeWord :: more)) (hId : Spells idWord id)
      (hBound : id < numIds) (hSize : Spells sizeWord size) :
      OperationLine numIds (line, text) (line, .allocate id size)
  | reallocate {line id size : Nat} {text idWord sizeWord : List Char} {more : List (List Char)}
      (hWords : Words text (['r'] :: idWord :: sizeWord :: more)) (hId : Spells idWord id)
      (hBound : id < numIds) (hSize : Spells sizeWord size) :
      OperationLine numIds (line, text) (line, .reallocate id size)
  | free {line id : Nat} {text idWord : List Char} {more : List (List Char)}
      (hWords : Words text (['f'] :: idWord :: more)) (hId : Spells idWord id)
      (hBound : id < numIds) : OperationLine numIds (line, text) (line, .free id)

/-- The text is that of a trace. -/
inductive Reads (text : String) : Trace → Prop where
  | intro {ls : List (List Char)} {first second third fourth : Entry} {rest : List Entry}
      {suggestedHeapSize numIds weight : Nat} {ops : List (Nat × Op)}
      (hLines : Lines text.toList ls)
      (hListing : Listing 1 ls (first :: second :: third :: fourth :: rest))
      (hFirst : Spells first.2 suggestedHeapSize) (hSecond : Spells second.2 numIds)
      (hThird : Spells third.2 rest.length) (hFourth : Spells fourth.2 weight)
      (hOps : List.Forall₂ (OperationLine numIds) rest ops) :
      Reads text { suggestedHeapSize, numIds, weight, ops }

section Lines

variable {text : String} {es rest : List Entry} {n numIds : Nat}

/-- The lines of a text that are not blank, numbered from a number on. -/
theorem listing_iff {ls : List (List Char)} :
    (((ls.zipIdx n).map fun (line, number) => (number, trim line)).filter
      fun entry => !entry.2.isEmpty) = es ↔ Listing n ls es := by
  induction ls generalizing n es with
  | nil =>
    constructor
    · rintro rfl
      exact .none
    · intro h
      cases h
      rfl
  | cons line ls ih =>
    simp only [List.zipIdx_cons, List.map_cons, List.filter_cons]
    constructor
    · intro h
      split at h
      · rename_i hText
        cases h
        exact .entry (trim_eq_iff.1 rfl) (by simpa using hText) (ih.1 rfl)
      · rename_i hText
        exact .blank (trim_eq_iff.1 (by simpa using hText)) (ih.1 h)
    · intro h
      cases h with
      | blank hLine hRest =>
        rw [trim_eq_iff.2 hLine]
        exact ih.2 hRest
      | entry hLine hText hRest =>
        rw [trim_eq_iff.2 hLine, if_pos (by simpa using hText), ih.2 hRest]

theorem entries_eq_iff :
    entries text = es ↔ ∃ ls, Lines text.toList ls ∧ Listing 1 ls es := by
  constructor
  · intro h
    exact ⟨lines text.toList, lines_eq_iff.1 rfl, listing_iff.1 h⟩
  · rintro ⟨ls, hLines, hListing⟩
    rw [entries, lines_eq_iff.2 hLines]
    exact listing_iff.2 hListing

theorem number_eq_ok_iff {line : Nat} {word : Option (List Char)} {reason : Reason} :
    number line word reason = .ok n ↔ ∃ w, word = some w ∧ Spells w n := by
  simp only [← numeral?_eq_some_iff_spells, ← Option.bind_eq_some_iff, number]
  cases word.bind numeral? <;> simp

theorem headerNumber_sound (h : headerNumber es = .ok (n, rest)) :
    ∃ e, es = e :: rest ∧ Spells e.2 n := by
  cases es with
  | nil => cases h
  | cons e es =>
    obtain ⟨m, hNumber, h⟩ := bind_eq_ok_iff.1 h
    obtain ⟨w, hw, hSpells⟩ := number_eq_ok_iff.1 hNumber
    cases hw
    cases h
    exact ⟨e, rfl, hSpells⟩

theorem headerNumber_complete {e : Entry} (h : Spells e.2 n) :
    headerNumber (e :: rest) = .ok (n, rest) :=
  bind_eq_ok_iff.2 ⟨n, number_eq_ok_iff.2 ⟨e.2, rfl, h⟩, rfl⟩

theorem eq_cons_of_getElem?_one {α : Type} {l : List α} {a : α} (h : l[1]? = some a) :
    ∃ first more, l = first :: a :: more := by
  match l with
  | [] => cases h
  | [_] => cases h
  | first :: second :: more =>
    cases h
    exact ⟨first, more, rfl⟩

/-- What follows the kind and the id of an operation that has a size. -/
theorem sized_eq_ok_iff {line : Nat} {kind idWord : List Char} {more : List (List Char)}
    {sized : Nat → Op} {op : Nat × Op} :
    (number line (kind :: idWord :: more)[2]? .size >>= fun size => .ok (line, sized size)) =
        .ok op ↔
      ∃ size sizeWord rest,
        more = sizeWord :: rest ∧ Spells sizeWord size ∧ op = (line, sized size) := by
  constructor
  · intro h
    obtain ⟨size, hNumber, hOp⟩ := bind_eq_ok_iff.1 h
    obtain ⟨sizeWord, hThird, hSize⟩ := number_eq_ok_iff.1 hNumber
    obtain ⟨_, rest, hMore⟩ := eq_cons_of_getElem?_one (l := idWord :: more) hThird
    cases hOp
    cases hMore
    exact ⟨size, sizeWord, rest, rfl, hSize, rfl⟩
  · rintro ⟨size, sizeWord, rest, rfl, hSize, rfl⟩
    exact bind_eq_ok_iff.2 ⟨size, number_eq_ok_iff.2 ⟨sizeWord, rfl, hSize⟩, rfl⟩

theorem operation_sound {entry : Entry} {op : Nat × Op} (h : operation numIds entry = .ok op) :
    OperationLine numIds entry op := by
  obtain ⟨line, text⟩ := entry
  obtain ⟨id, hId, h⟩ := bind_eq_ok_iff.1 h
  obtain ⟨idWord, hSecond, hId⟩ := number_eq_ok_iff.1 hId
  obtain ⟨kind, more, hWords⟩ := eq_cons_of_getElem?_one hSecond
  by_cases hBound : id < numIds
  · simp only [if_neg (Nat.not_le.2 hBound), hWords, List.head?_cons] at h
    split at h
    · rename_i hKind
      obtain ⟨size, sizeWord, rest, rfl, hSize, rfl⟩ := sized_eq_ok_iff.1 h
      cases hKind
      exact .allocate (words_eq_iff.1 hWords) hId hBound hSize
    · rename_i hKind
      obtain ⟨size, sizeWord, rest, rfl, hSize, rfl⟩ := sized_eq_ok_iff.1 h
      cases hKind
      exact .reallocate (words_eq_iff.1 hWords) hId hBound hSize
    · rename_i hKind
      cases h
      cases hKind
      exact .free (words_eq_iff.1 hWords) hId hBound
    · cases h
  · simp only [if_pos (Nat.not_lt.1 hBound)] at h
    split at h <;> cases h

theorem operation_complete {entry : Entry} {op : Nat × Op} (h : OperationLine numIds entry op) :
    operation numIds entry = .ok op := by
  cases h with
  | allocate hWords hId hBound hSize =>
    simp only [operation, words_eq_iff.2 hWords]
    refine bind_eq_ok_iff.2 ⟨_, number_eq_ok_iff.2 ⟨_, rfl, hId⟩, ?_⟩
    simp only [if_neg (Nat.not_le.2 hBound)]
    exact sized_eq_ok_iff.2 ⟨_, _, _, rfl, hSize, rfl⟩
  | reallocate hWords hId hBound hSize =>
    simp only [operation, words_eq_iff.2 hWords]
    refine bind_eq_ok_iff.2 ⟨_, number_eq_ok_iff.2 ⟨_, rfl, hId⟩, ?_⟩
    simp only [if_neg (Nat.not_le.2 hBound)]
    exact sized_eq_ok_iff.2 ⟨_, _, _, rfl, hSize, rfl⟩
  | free hWords hId hBound =>
    simp only [operation, words_eq_iff.2 hWords]
    refine bind_eq_ok_iff.2 ⟨_, number_eq_ok_iff.2 ⟨_, rfl, hId⟩, ?_⟩
    simp only [if_neg (Nat.not_le.2 hBound)]
    rfl

theorem operation_eq_ok_iff {entry : Entry} {op : Nat × Op} :
    operation numIds entry = .ok op ↔ OperationLine numIds entry op :=
  ⟨operation_sound, operation_complete⟩

theorem mapM_eq_ok_iff {ε α β : Type} {f : α → Except ε β} {as : List α} {bs : List β} :
    as.mapM f = .ok bs ↔ List.Forall₂ (fun a b => f a = .ok b) as bs := by
  induction as generalizing bs with
  | nil =>
    rw [List.mapM_nil, List.forall₂_nil_left_iff]
    exact ⟨fun h => by cases h; rfl, fun h => by rw [h]; rfl⟩
  | cons a as ih =>
    rw [List.mapM_cons, List.forall₂_cons_left_iff, bind_eq_ok_iff]
    constructor
    · rintro ⟨b, hb, h⟩
      obtain ⟨bs, hbs, h⟩ := bind_eq_ok_iff.1 h
      cases h
      exact ⟨b, bs, hb, ih.1 hbs, rfl⟩
    · rintro ⟨b, bs, hb, hbs, rfl⟩
      exact ⟨b, hb, bind_eq_ok_iff.2 ⟨bs, ih.2 hbs, rfl⟩⟩

theorem operations_eq_ok_iff {ops : List (Nat × Op)} :
    es.mapM (operation numIds) = .ok ops ↔ List.Forall₂ (OperationLine numIds) es ops := by
  rw [mapM_eq_ok_iff]
  simp only [operation_eq_ok_iff]

end Lines

theorem OperationLine.id_lt {numIds : Nat} {entry : Entry} {op : Nat × Op}
    (h : OperationLine numIds entry op) : op.2.id < numIds := by
  cases h with
  | allocate _ _ hBound => exact hBound
  | reallocate _ _ hBound => exact hBound
  | free _ _ hBound => exact hBound

theorem Reads.id_lt {text : String} {t : Trace} (h : Reads text t) :
    ∀ op ∈ t.ops, op.2.id < t.numIds := by
  cases h with
  | @intro _ _ _ _ _ rest _ numIds _ ops hLines hListing _ _ hThird _ hOps =>
    clear hLines hListing hThird
    induction hOps with
    | nil => simp
    | cons hOp _ ih => exact List.forall_mem_cons.2 ⟨hOp.id_lt, ih⟩

theorem parse_sound {text : String} {t : Trace} (h : parse text = .ok t) : Reads text t := by
  obtain ⟨⟨heapSize, rest₁⟩, hHeader₁, h⟩ := bind_eq_ok_iff.1 h
  obtain ⟨⟨numIds, rest₂⟩, hHeader₂, h⟩ := bind_eq_ok_iff.1 h
  obtain ⟨⟨numOps, rest₃⟩, hHeader₃, h⟩ := bind_eq_ok_iff.1 h
  obtain ⟨⟨weight, rest⟩, hHeader₄, h⟩ := bind_eq_ok_iff.1 h
  obtain ⟨ops, hOps, h⟩ := bind_eq_ok_iff.1 h
  have hCount : ops.length = numOps ∧
      t = { suggestedHeapSize := heapSize, numIds, weight, ops } := by
    dsimp only at h
    split at h
    · cases h
    · rename_i hCount
      cases h
      exact ⟨not_not.1 hCount, rfl⟩
  obtain ⟨rfl, rfl⟩ := hCount
  obtain ⟨first, hEntries, hFirst⟩ := headerNumber_sound hHeader₁
  obtain ⟨second, rfl, hSecond⟩ := headerNumber_sound hHeader₂
  obtain ⟨third, rfl, hThird⟩ := headerNumber_sound hHeader₃
  obtain ⟨fourth, rfl, hFourth⟩ := headerNumber_sound hHeader₄
  obtain ⟨ls, hLines, hListing⟩ := entries_eq_iff.1 hEntries
  rw [operations_eq_ok_iff] at hOps
  exact .intro hLines hListing hFirst hSecond (hOps.length_eq ▸ hThird) hFourth hOps

theorem parse_complete {text : String} {t : Trace} (h : Reads text t) : parse text = .ok t := by
  cases h with
  | intro hLines hListing hFirst hSecond hThird hFourth hOps =>
    rw [parse, entries_eq_iff.2 ⟨_, hLines, hListing⟩]
    refine bind_eq_ok_iff.2 ⟨_, headerNumber_complete hFirst, bind_eq_ok_iff.2
      ⟨_, headerNumber_complete hSecond, bind_eq_ok_iff.2
        ⟨_, headerNumber_complete hThird, bind_eq_ok_iff.2
          ⟨_, headerNumber_complete hFourth, bind_eq_ok_iff.2
            ⟨_, operations_eq_ok_iff.2 hOps, ?_⟩⟩⟩⟩⟩
    dsimp only
    rw [if_neg (not_not.2 hOps.length_eq.symm)]
    rfl

theorem parse_id_lt {text : String} {t : Trace} (h : parse text = .ok t) :
    ∀ op ∈ t.ops, op.2.id < t.numIds :=
  (parse_sound h).id_lt

/-- A text can be read if it is that of a trace, and is then read as that trace; the ids of a trace
are below the number of its ids. -/
theorem parse_exact (text : String) :
    (∀ t, parse text = .ok t ↔ Reads text t) ∧
      ∀ t, Reads text t → ∀ op ∈ t.ops, op.2.id < t.numIds :=
  ⟨fun _ => ⟨parse_sound, parse_complete⟩, fun _ h => h.id_lt⟩

theorem parse_exact_mixed :
    Reads "64\r\n\n +1\n3\n\u00a01\r\r\na 0 8 9\nr\u20030 +7\n\r\nf 0" {
      suggestedHeapSize := 64
      numIds := 1
      weight := 1
      ops := [(6, .allocate 0 8), (7, .reallocate 0 7), (9, .free 0)] } :=
  ((parse_exact _).1 _).1 (by decide +kernel)

end TaggedHeap.Trace
