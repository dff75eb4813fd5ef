import Mathlib.Data.List.Induction
import TaggedHeap.Proofs.Grammar

/-! # Where a text is no trace

A text that cannot be read fails at the first of its lines that is out of place, and what is on the
lines after that one does not matter. If every line is in place, the failure is for line zero: there
are too few lines for a header, or another number of operations than the header says.
-/

namespace TaggedHeap.Trace

open Text

/-- Whether an entry may come after the given ones: the first four hold a number each, the others an
operation with an id below the second of these numbers. -/
def InPlace : List Entry → Entry → Prop
  | _ :: second :: _ :: _ :: _, e => ∃ numIds op, Spells second.2 numIds ∧ OperationLine numIds e op
  | _, e => ∃ n, Spells e.2 n

/-- Each entry may come after those before it. -/
def InOrder (es : List Entry) : Prop := ∀ before e after, es = before ++ e :: after → InPlace before e

/-- The number of a line that is out of place while the lines before it are not. -/
inductive FirstBad : List (List Char) → Nat → Prop where
  | intro {above below : List (List Char)} {line text : List Char} {before : List Entry}
      (hAbove : Listing 1 above before) (hOrder : InOrder before) (hLine : Trimmed line text)
      (hText : text ≠ []) (hBad : ¬ InPlace before (above.length + 1, text)) :
      FirstBad (above ++ line :: below) (above.length + 1)

/-- The lines are all in place, but are too few for a header or not as many as it says. -/
inductive Miscounted : List (List Char) → Prop where
  | header {ls : List (List Char)} {es : List Entry} (hListing : Listing 1 ls es)
      (hOrder : InOrder es) (hFew : es.length < 4) : Miscounted ls
  | operations {ls : List (List Char)} {first second third fourth : Entry} {rest : List Entry}
      {n : Nat} (hListing : Listing 1 ls (first :: second :: third :: fourth :: rest))
      (hOrder : InOrder (first :: second :: third :: fourth :: rest)) (hThird : Spells third.2 n)
      (hCount : rest.length ≠ n) : Miscounted ls

section Order

variable {es before after : List Entry} {e : Entry}

theorem InOrder.concat (h : InOrder es) (he : InPlace es e) : InOrder (es ++ [e]) := by
  intro before d after hSplit
  rcases after.eq_nil_or_concat' with rfl | ⟨after, last, rfl⟩
  · obtain ⟨rfl, hEq⟩ := List.append_inj' hSplit rfl
    cases hEq
    exact he
  · rw [← List.cons_append, ← List.append_assoc] at hSplit
    obtain ⟨rfl, _⟩ := List.append_inj' hSplit rfl
    exact h before d after rfl

theorem InOrder.operations {a b c d : Entry} {numIds : Nat} (h : InOrder (a :: b :: c :: d :: es))
    (hb : Spells b.2 numIds) : ∀ e ∈ es, ∃ op, OperationLine numIds e op := by
  intro e he
  obtain ⟨before, after, rfl⟩ := List.append_of_mem he
  obtain ⟨n, op, hn, hOp⟩ := h (a :: b :: c :: d :: before) e after rfl
  rw [hb.unique hn]
  exact ⟨op, hOp⟩

theorem inOrder_or_bad (es : List Entry) :
    InOrder es ∨ ∃ before e after, es = before ++ e :: after ∧ InOrder before ∧ ¬ InPlace before e := by
  induction es using List.reverseRecOn with
  | nil =>
    left
    intro before e after hSplit
    simp at hSplit
  | append_singleton es e ih =>
    rcases ih with hOrder | ⟨before, d, after, rfl, hOrder, hBad⟩
    · by_cases he : InPlace es e
      · exact Or.inl (hOrder.concat he)
      · exact Or.inr ⟨es, e, [], rfl, hOrder, he⟩
    · exact Or.inr ⟨before, d, after ++ [e], by rw [List.append_assoc, List.cons_append], hOrder, hBad⟩

end Order

section Reading

variable {es before rest : List Entry} {a b c d e : Entry}
variable {n numIds numOps weight : Nat} {α β : Type}

/-- If the reading fails, it is for this line. -/
def Blames (run : Except Failure α) (line : Nat) : Prop :=
  ∀ f, run = .error f → ∃ reason, f = .malformed line reason

theorem blames_ok (x : α) (line : Nat) : Blames (.ok x) line := nofun

theorem blames_error (line : Nat) (reason : Reason) :
    Blames (.error (.malformed line reason) : Except Failure α) line := by
  rintro _ ⟨⟩
  exact ⟨reason, rfl⟩

theorem Blames.bind {run : Except Failure α} {next : α → Except Failure β} {line : Nat}
    (h : Blames run line) (hNext : ∀ x, Blames (next x) line) : Blames (run >>= next) line := by
  cases run with
  | ok x => exact hNext x
  | error f =>
    rintro _ ⟨⟩
    exact h f rfl

theorem blames_number (line : Nat) (word : Option (List Char)) (reason : Reason) :
    Blames (number line word reason) line := by
  unfold number
  split
  · exact blames_ok _ line
  · exact blames_error line reason

theorem blames_operation (numIds : Nat) (e : Entry) : Blames (operation numIds e) e.1 := by
  refine (blames_number e.1 _ .id).bind fun id => ?_
  dsimp only
  split
  · exact blames_error e.1 .idOutOfRange
  · split
    · exact (blames_number e.1 _ .size).bind fun size => blames_ok _ e.1
    · exact (blames_number e.1 _ .size).bind fun size => blames_ok _ e.1
    · exact blames_ok _ e.1
    · exact blames_error e.1 .unknownOperation

/-- Wherever the lines after it lead, the reading fails for this line. -/
def Stops (run : List Entry → Except Failure α) (before : List Entry) (e : Entry) : Prop :=
  ∃ reason, ∀ after, run (before ++ e :: after) = .error (.malformed e.1 reason)

theorem stops_headerNumber (hBad : ¬ ∃ n, Spells e.2 n)
    (next : Nat × List Entry → Except Failure α) :
    Stops (fun es => headerNumber es >>= next) [] e := by
  cases hNumber : number e.1 (some e.2) .number with
  | ok n =>
    obtain ⟨_, ⟨⟩, hSpells⟩ := number_eq_ok_iff.1 hNumber
    exact absurd ⟨n, hSpells⟩ hBad
  | error f =>
    obtain ⟨reason, rfl⟩ := blames_number _ _ _ f hNumber
    refine ⟨reason, fun after => ?_⟩
    change (number e.1 (some e.2) .number >>= _) >>= next = _
    rw [hNumber]
    rfl

theorem headerNumber_bind (ha : Spells a.2 n) (next : Nat × List Entry → Except Failure α) :
    headerNumber (a :: rest) >>= next = next (n, rest) := by
  rw [headerNumber_complete ha]
  rfl

theorem Stops.header {next : Nat × List Entry → Except Failure α} (ha : Spells a.2 n)
    (h : Stops (fun es => next (n, es)) before e) :
    Stops (fun es => headerNumber es >>= next) (a :: before) e := by
  obtain ⟨reason, hNext⟩ := h
  exact ⟨reason, fun after => (headerNumber_bind ha next).trans (hNext after)⟩

theorem exists_operations (h : ∀ e ∈ es, ∃ op, OperationLine numIds e op) :
    ∃ ops, List.Forall₂ (OperationLine numIds) es ops := by
  induction es with
  | nil => exact ⟨[], .nil⟩
  | cons e es ih =>
    obtain ⟨⟨op, hOp⟩, hRest⟩ := List.forall_mem_cons.1 h
    obtain ⟨ops, hOps⟩ := ih hRest
    exact ⟨op :: ops, .cons hOp hOps⟩

/-- What comes after the first entry that is no operation is not looked at. -/
theorem stops_operations (hBefore : ∀ d ∈ before, ∃ op, OperationLine numIds d op)
    (hBad : ¬ ∃ op, OperationLine numIds e op)
    (next : List (Nat × Op) → Except Failure α) :
    Stops (fun es => es.mapM (operation numIds) >>= next) before e := by
  obtain ⟨ops, hOps⟩ := exists_operations hBefore
  cases hOperation : operation numIds e with
  | ok op => exact absurd ⟨op, operation_sound hOperation⟩ hBad
  | error f =>
    obtain ⟨reason, rfl⟩ := blames_operation numIds e f hOperation
    refine ⟨reason, fun after => ?_⟩
    dsimp only
    rw [List.mapM_append, operations_eq_ok_iff.2 hOps, List.mapM_cons, hOperation]
    rfl

theorem ofEntries_stops (hOrder : InOrder before) (hBad : ¬ InPlace before e) :
    Stops ofEntries before e := by
  -- One case for each number of the header, and one for the operations.
  rcases before with _ | ⟨a, before⟩
  · exact stops_headerNumber hBad _
  obtain ⟨_, ha⟩ := hOrder [] a before rfl
  refine Stops.header ha ?_
  rcases before with _ | ⟨b, before⟩
  · exact stops_headerNumber hBad _
  obtain ⟨numIds, hb⟩ := hOrder [a] b before rfl
  refine Stops.header hb ?_
  rcases before with _ | ⟨c, before⟩
  · exact stops_headerNumber hBad _
  obtain ⟨_, hc⟩ := hOrder [a, b] c before rfl
  refine Stops.header hc ?_
  rcases before with _ | ⟨d, before⟩
  · exact stops_headerNumber hBad _
  obtain ⟨_, hd⟩ := hOrder [a, b, c] d before rfl
  refine Stops.header hd (stops_operations (hOrder.operations hb) ?_ _)
  rintro ⟨op, hOp⟩
  exact hBad ⟨numIds, op, hb, hOp⟩

theorem ofEntries_short (hOrder : InOrder es) (hFew : es.length < 4) :
    ofEntries es = .error (.malformed 0 .headerIncomplete) := by
  rw [ofEntries]
  rcases es with _ | ⟨a, es⟩
  · rfl
  obtain ⟨_, ha⟩ := hOrder [] a es rfl
  rw [headerNumber_bind ha]
  rcases es with _ | ⟨b, es⟩
  · rfl
  obtain ⟨_, hb⟩ := hOrder [a] b es rfl
  refine (headerNumber_bind hb _).trans ?_
  rcases es with _ | ⟨c, es⟩
  · rfl
  obtain ⟨_, hc⟩ := hOrder [a, b] c es rfl
  refine (headerNumber_bind hc _).trans ?_
  rcases es with _ | ⟨d, es⟩
  · rfl
  · simp only [List.length_cons] at hFew
    omega

theorem ofEntries_header {heapSize : Nat} {ops : List (Nat × Op)} (ha : Spells a.2 heapSize)
    (hb : Spells b.2 numIds) (hc : Spells c.2 numOps) (hd : Spells d.2 weight)
    (hOps : List.Forall₂ (OperationLine numIds) rest ops) :
    ofEntries (a :: b :: c :: d :: rest) =
      if rest.length ≠ numOps then .error (.malformed 0 .operationCount)
      else .ok { suggestedHeapSize := heapSize, numIds, weight, ops } := by
  rw [ofEntries, headerNumber_bind ha]
  refine (headerNumber_bind hb _).trans ((headerNumber_bind hc _).trans
    ((headerNumber_bind hd _).trans ?_))
  dsimp only
  rw [operations_eq_ok_iff.2 hOps, hOps.length_eq]
  rfl

/-- If every entry is in place, the number of operations decides. -/
theorem ofEntries_inOrder (hOrder : InOrder (a :: b :: c :: d :: rest)) (hc : Spells c.2 numOps) :
    (∃ t, ofEntries (a :: b :: c :: d :: rest) = .ok t) ∧ rest.length = numOps ∨
      ofEntries (a :: b :: c :: d :: rest) = .error (.malformed 0 .operationCount) ∧
        rest.length ≠ numOps := by
  obtain ⟨heapSize, ha⟩ := hOrder [] a _ rfl
  obtain ⟨numIds, hb⟩ := hOrder [a] b _ rfl
  obtain ⟨weight, hd⟩ := hOrder [a, b, c] d rest rfl
  obtain ⟨ops, hOps⟩ := exists_operations (hOrder.operations hb)
  rw [ofEntries_header ha hb hc hd hOps]
  by_cases hCount : rest.length ≠ numOps
  · rw [if_pos hCount]
    exact Or.inr ⟨rfl, hCount⟩
  · rw [if_neg hCount]
    exact Or.inl ⟨⟨_, rfl⟩, not_not.1 hCount⟩

end Reading

section Listings

variable {n : Nat} {above below ls : List (List Char)} {es es' before after : List Entry} {e : Entry}

theorem Listing.exists (n : Nat) (ls : List (List Char)) : ∃ es, Listing n ls es :=
  ⟨_, listing_iff.1 rfl⟩

theorem Listing.append (h : Listing n above es) (h' : Listing (n + above.length) below es') :
    Listing n (above ++ below) (es ++ es') := by
  induction h with
  | none => exact h'
  | blank hLine _ ih =>
    rw [List.length_cons, ← Nat.succ_add_eq_add_succ] at h'
    exact .blank hLine (ih h')
  | entry hLine hText _ ih =>
    rw [List.length_cons, ← Nat.succ_add_eq_add_succ] at h'
    exact .entry hLine hText (ih h')

theorem Listing.split (h : Listing n ls (before ++ e :: after)) :
    ∃ above line below, ls = above ++ line :: below ∧ e.1 = n + above.length ∧
      Listing n above before ∧ Trimmed line e.2 ∧ e.2 ≠ [] := by
  generalize hEs : before ++ e :: after = es at h
  induction h generalizing before with
  | none => cases List.append_ne_nil_of_right_ne_nil before (List.cons_ne_nil e after) hEs
  | @blank n line ls es hLine _ ih =>
    obtain ⟨above, found, below, rfl, hNumber, hAbove, hFound⟩ := ih hEs
    exact ⟨line :: above, found, below, rfl, by rw [hNumber, List.length_cons]; omega,
      .blank hLine hAbove, hFound⟩
  | @entry n line text ls es hLine hText _ ih =>
    cases before with
    | nil =>
      cases hEs
      exact ⟨[], line, ls, rfl, rfl, .none, hLine, hText⟩
    | cons d before =>
      obtain ⟨rfl, hRest⟩ := List.cons.inj hEs
      obtain ⟨above, found, below, rfl, hNumber, hAbove, hFound⟩ := ih hRest
      exact ⟨line :: above, found, below, rfl, by rw [hNumber, List.length_cons]; omega,
        .entry hLine hText hAbove, hFound⟩

end Listings

section Lines

variable {text : String} {ls ls' : List (List Char)} {l : Nat} {f : Failure}

/-- A line that is the first bad one of a text is that of every text with the same lines up to it. -/
theorem FirstBad.entries (h : FirstBad ls l) :
    ∃ before e, e.1 = l ∧ InOrder before ∧ ¬ InPlace before e ∧
      ∀ ls', ls'.take l = ls.take l → ∃ after, Listing 1 ls' (before ++ e :: after) := by
  cases h with
  | @intro above below line text before hAbove hOrder hLine hText hBad =>
    refine ⟨before, (above.length + 1, text), rfl, hOrder, hBad, fun ls' hSame => ?_⟩
    have hFirst : (above ++ line :: below).take (above.length + 1) = above ++ [line] :=
      List.take_length_add_append 1
    rw [hFirst] at hSame
    obtain ⟨after, hAfter⟩ := Listing.exists (above.length + 1 + 1) (ls'.drop (above.length + 1))
    refine ⟨after, ?_⟩
    rw [← List.take_append_drop (above.length + 1) ls', hSame, List.append_assoc]
    refine hAbove.append ?_
    rw [Nat.add_comm 1 above.length]
    exact .entry hLine hText hAfter

theorem FirstBad.parse (h : FirstBad ls l) :
    ∃ reason, ∀ text ls', Lines text.toList ls' → ls'.take l = ls.take l →
      Trace.parse text = .error (.malformed l reason) := by
  obtain ⟨before, e, rfl, hOrder, hBad, hSame⟩ := h.entries
  obtain ⟨reason, hRun⟩ := ofEntries_stops hOrder hBad
  refine ⟨reason, fun text ls' hLines hTake => ?_⟩
  obtain ⟨after, hListing⟩ := hSame ls' hTake
  rw [Trace.parse, entries_eq_iff.2 ⟨ls', hLines, hListing⟩]
  exact hRun after

theorem Miscounted.parse (h : Miscounted ls) (hLines : Lines text.toList ls) :
    ∃ reason, Trace.parse text = .error (.malformed 0 reason) := by
  rw [Trace.parse]
  cases h with
  | header hListing hOrder hFew =>
    rw [entries_eq_iff.2 ⟨ls, hLines, hListing⟩]
    exact ⟨_, ofEntries_short hOrder hFew⟩
  | operations hListing hOrder hThird hCount =>
    rw [entries_eq_iff.2 ⟨ls, hLines, hListing⟩]
    rcases ofEntries_inOrder hOrder hThird with ⟨_, hEq⟩ | ⟨hRun, _⟩
    · exact absurd hEq hCount
    · exact ⟨_, hRun⟩

theorem firstBad_or_miscounted (hLines : Lines text.toList ls) (h : parse text = .error f) :
    FirstBad ls f.line ∨ f.line = 0 ∧ Miscounted ls := by
  obtain ⟨es, hListing⟩ := Listing.exists 1 ls
  rw [Trace.parse, entries_eq_iff.2 ⟨ls, hLines, hListing⟩] at h
  rcases inOrder_or_bad es with hOrder | ⟨before, e, after, rfl, hOrder, hBad⟩
  · right
    rcases Nat.lt_or_ge es.length 4 with hFew | hMany
    · rw [ofEntries_short hOrder hFew] at h
      cases h
      exact ⟨rfl, .header hListing hOrder hFew⟩
    · rcases es with _ | ⟨a, _ | ⟨b, _ | ⟨c, _ | ⟨d, rest⟩⟩⟩⟩
      iterate 4 simp at hMany
      obtain ⟨numOps, hc⟩ := hOrder [a, b] c _ rfl
      rcases ofEntries_inOrder hOrder hc with ⟨⟨t, hRun⟩, _⟩ | ⟨hRun, hCount⟩
      · rw [hRun] at h
        cases h
      · rw [hRun] at h
        cases h
        exact ⟨rfl, .operations hListing hOrder hc hCount⟩
  · left
    obtain ⟨reason, hRun⟩ := ofEntries_stops hOrder hBad
    rw [hRun after] at h
    cases h
    obtain ⟨above, line, below, rfl, hNumber, hAbove, hLine, hText⟩ := hListing.split
    obtain ⟨number, text⟩ := e
    obtain rfl : number = above.length + 1 := hNumber.trans (Nat.add_comm 1 above.length)
    exact .intro hAbove hOrder hLine hText hBad

end Lines

/-- A text that cannot be read fails for its first bad line, whatever the lines after that one are; it
fails for line zero if it has no bad line but too few lines or another number of operations than it
says. -/
theorem parse_failure_exact {text : String} {ls : List (List Char)} (hLines : Lines text.toList ls) :
    (∀ l, 0 < l → ((∃ f, parse text = .error f ∧ f.line = l) ↔ FirstBad ls l)) ∧
      ((∃ f, parse text = .error f ∧ f.line = 0) ↔ Miscounted ls) ∧
      ∀ f, parse text = .error f → 0 < f.line → ∀ text' ls', Lines text'.toList ls' →
        ls'.take f.line = ls.take f.line → parse text' = .error f := by
  refine ⟨fun l hl => ⟨?_, fun hBad => ?_⟩, ⟨?_, fun hCount => ?_⟩, ?_⟩
  · rintro ⟨f, hParse, rfl⟩
    exact (firstBad_or_miscounted hLines hParse).resolve_right fun h => Nat.ne_of_gt hl h.1
  · obtain ⟨reason, hRun⟩ := hBad.parse
    exact ⟨_, hRun text ls hLines rfl, rfl⟩
  · rintro ⟨f, hParse, hZero⟩
    refine ((firstBad_or_miscounted hLines hParse).resolve_left fun hBad => ?_).2
    rw [hZero] at hBad
    cases hBad
  · obtain ⟨reason, hRun⟩ := hCount.parse hLines
    exact ⟨_, hRun, rfl⟩
  · intro f hParse hl text' ls' hLines' hSame
    have hBad := (firstBad_or_miscounted hLines hParse).resolve_right fun h => Nat.ne_of_gt hl h.1
    obtain ⟨reason, hRun⟩ := hBad.parse
    rw [hRun text' ls' hLines' hSame, ← hRun text ls hLines rfl, hParse]

/-- An id out of range after a blank line, a header and an operation, with worse to come. -/
theorem parse_failure_exact_id :
    ∃ ls, Lines "64\n1\n\n3\r\n1\na 0 8\na 1 8\nf\n".toList ls ∧ FirstBad ls 7 ∧
      ∀ text' ls', Lines text'.toList ls' → ls'.take 7 = ls.take 7 →
        parse text' = .error (.malformed 7 .idOutOfRange) := by
  have hParse : parse "64\n1\n\n3\r\n1\na 0 8\na 1 8\nf\n" =
      .error (.malformed 7 .idOutOfRange) := by decide +kernel
  obtain ⟨ls, hLines⟩ := Lines.exists "64\n1\n\n3\r\n1\na 0 8\na 1 8\nf\n".toList
  obtain ⟨hFirst, _, hSame⟩ := parse_failure_exact hLines
  exact ⟨ls, hLines, (hFirst 7 (by decide)).1 ⟨_, hParse, rfl⟩, hSame _ hParse (by decide)⟩

end TaggedHeap.Trace
