import Mathlib.Algebra.GroupWithZero.Nat
import TaggedHeap.Proofs.Passage

/-! # The journal as an audit trail

Whoever reads the journal and nothing else can keep books of the allocated blocks and of the size of
the arena. As long as every initialisation succeeds, no entry of the journal contradicts the books,
and after each request they are right.
-/

namespace TaggedHeap

/-- What a reader of a journal knows: the allocated blocks, each by its pointer and its size, and the
size of the arena. -/
structure Books where
  entries : List (Nat × Nat)
  arena : Nat

namespace Books

/-- Two entries have no byte in common. A block begins four bytes before its pointer. -/
def Apart (e f : Nat × Nat) : Prop :=
  e.1 - 4 + e.2 ≤ f.1 - 4 ∨ f.1 - 4 + f.2 ≤ e.1 - 4

instance (e f : Nat × Nat) : Decidable (Apart e f) := inferInstanceAs (Decidable (_ ∨ _))

/-- Takes down an event, unless it contradicts the books. -/
def record (k : Books) : Event → Option Books
  | .allocated _ size pointer =>
    if ∀ e ∈ k.entries, Apart (pointer, size) e then
      some { k with entries := (pointer, size) :: k.entries }
    else none
  | .released pointer size =>
    if (pointer, size) ∈ k.entries then
      some { k with entries := k.entries.erase (pointer, size) }
    else none
  | .initialized _ _ => some { k with entries := [] }
  | .grew increment arenaSize =>
    if arenaSize = k.arena + increment then some { k with arena := arenaSize } else none
  | .allocationFailed _ _ | .releaseRejected _ _ | .moved _ _ _ | .checkFailed _ | .replayed _ =>
    some k

/-- Takes down one event after the other. -/
def audit (k : Books) (events : List Event) : Option Books := events.foldlM record k

/-- Nothing but the bare layout. -/
def blank : Books := ⟨[], 144⟩

/-! A journal is printed as texts and named fields, and these are enough to keep books. -/

/-- The number in the field with the given name. -/
def number (fields : List (String × Event.Value)) (name : String) : Option Nat :=
  match fields.lookup name with
  | some (.number n) => some n
  | _ => none

/-- Takes down an event of which only the text and the fields are known. -/
def read (k : Books) (message : String) (fields : List (String × Event.Value)) : Option Books :=
  if message = "allocated block" then do
    k.record (.allocated (← number fields "requested") (← number fields "block_size")
      (← number fields "payload"))
  else if message = "released block" then do
    k.record (.released (← number fields "payload") (← number fields "block_size"))
  else if message = "heap initialized" then do
    k.record (.initialized (← number fields "arena_size") (← number fields "reclaimed"))
  else if message = "grew arena" then do
    k.record (.grew (← number fields "increment") (← number fields "arena_size"))
  else some k

theorem record_eq_read (k : Books) (event : Event) :
    k.record event = k.read event.message event.fields := by
  cases event <;> rfl

theorem audit_eq_read (k : Books) (events : List Event) :
    k.audit events = events.foldlM (fun k event => k.read event.message event.fields) k :=
  congrArg (fun f => events.foldlM f k) (funext₂ record_eq_read)

theorem audit_concat {k l : Books} {events : List Event} {event : Event}
    (h : k.audit events = some l) : k.audit (events ++ [event]) = l.record event := by
  rw [audit, List.foldlM_append, show events.foldlM record k = some l from h]
  exact bind_pure (l.record event)

/-- How a block is entered. -/
def entry (b : Block) : Nat × Nat := (b.offset + 4, b.size)

/-- The books are right about an account. -/
structure Agree (k : Books) (a : Account) : Prop where
  entries : k.entries.Perm (a.held.map entry)
  arena : k.arena = a.size

end Books

/-- Events with the same text come from the same part of the heap and have the same level, so whoever
selects by these takes all of them or none. -/
theorem Event.level_eq_of_message_eq {e f : Event} (h : e.message = f.message) :
    e.level = f.level ∧ e.target = f.target := by
  cases e <;> cases f <;> first | exact ⟨rfl, rfl⟩ | simp [message] at h

/-- How much an event says that the arena has grown. -/
def Event.increment : Event → Nat
  | .grew increment _ => increment
  | _ => 0

theorem Books.record_arena {k l : Books} {event : Event} (h : k.record event = some l) :
    l.arena = k.arena + event.increment := by
  cases event with
  | allocated _ _ _ =>
    simp only [record, Option.ite_none_right_eq_some, Option.some.injEq] at h
    rw [← h.2]
    rfl
  | released _ _ =>
    simp only [record, Option.ite_none_right_eq_some, Option.some.injEq] at h
    rw [← h.2]
    rfl
  | grew _ _ =>
    simp only [record, Option.ite_none_right_eq_some, Option.some.injEq] at h
    rw [← h.2]
    exact h.1
  | _ =>
    cases h
    rfl

/-- The arena has the size that it had and all that it has grown by since. -/
theorem Books.audit_arena {k l : Books} {events : List Event} (h : k.audit events = some l) :
    l.arena = k.arena + (events.map Event.increment).sum := by
  induction events generalizing k with
  | nil =>
    cases h
    rfl
  | cons event events ih =>
    rw [audit, List.foldlM_cons] at h
    obtain ⟨j, hRecord, hRest⟩ := Option.bind_eq_some_iff.mp h
    rw [ih hRest, record_arena hRecord, List.map_cons, List.sum_cons, Nat.add_assoc]

namespace Account

variable {a b : Account}

/-- The books that are kept from the journal are right. -/
def Audited (a : Account) : Prop :=
  ∃ k, Books.blank.audit a.journal.toList = some k ∧ k.Agree a

/-- One more event is taken down, and the books are right again. -/
theorem Audited.record {event : Event} (h : a.Audited)
    (hJournal : b.journal = a.journal.push event)
    (hRecord : ∀ k : Books, k.Agree a → ∃ l, k.record event = some l ∧ l.Agree b) : b.Audited := by
  obtain ⟨k, hAudit, hAgree⟩ := h
  obtain ⟨l, hEvent, hAgree'⟩ := hRecord k hAgree
  refine ⟨l, ?_, hAgree'⟩
  rw [hJournal, Array.toList_push, Books.audit_concat hAudit, hEvent]

theorem Act.audited (h : a.Act b) (hAudited : a.Audited) : b.Audited := by
  cases h with
  | grow increment hHeld hSize _ hJournal =>
    refine hAudited.record hJournal fun k hAgree => ?_
    have hTotal : b.size = k.arena + increment := by rw [hSize, hAgree.arena]
    refine ⟨⟨k.entries, b.size⟩, if_pos hTotal, ?_, rfl⟩
    rw [hHeld]
    exact hAgree.entries
  | allocate requested block hHeld hApart hSize _ hJournal =>
    refine hAudited.record hJournal fun k hAgree => ?_
    have hNew : ∀ e ∈ k.entries, Books.Apart (Books.entry block) e := by
      intro e he
      obtain ⟨c, hc, rfl⟩ := List.mem_map.mp (hAgree.entries.mem_iff.mp he)
      exact (hApart c hc).symm
    refine ⟨_, if_pos hNew, ?_, hAgree.arena.trans hSize.symm⟩
    exact (hAgree.entries.cons (Books.entry block)).trans (hHeld.map Books.entry).symm
  | release block hHeld hSize _ hJournal =>
    refine hAudited.record hJournal fun k hAgree => ?_
    have hEntries := hAgree.entries.trans (hHeld.map Books.entry)
    rw [List.map_cons] at hEntries
    refine ⟨_, if_pos (hEntries.mem_iff.mpr List.mem_cons_self), ?_,
      hAgree.arena.trans hSize.symm⟩
    have hErased := hEntries.erase (Books.entry block)
    rwa [List.erase_cons_head] at hErased
  | note event hNote hHeld hSize _ hJournal =>
    refine hAudited.record hJournal fun k hAgree => ⟨k, ?_, ?_, ?_⟩
    · cases event with
      | allocationFailed _ _ => rfl
      | releaseRejected _ _ => rfl
      | moved _ _ _ => rfl
      | _ => exact hNote.elim
    · rw [hHeld]
      exact hAgree.entries
    · rw [hSize]
      exact hAgree.arena

theorem Acts.audited (h : a.Acts b) (hAudited : a.Audited) : b.Audited := by
  induction h with
  | refl => exact hAudited
  | tail _ hAct ih => exact hAct.audited ih

/-- The growth and the initialisation are taken down one after the other. -/
theorem Audited.restart (h : a.Audited) (chunk : Nat) : (a.restart chunk).Audited := by
  have hGrown : Account.Audited ⟨a.held, a.size + chunk, a.metrics.growth,
      a.journal.push (.grew chunk (a.size + chunk))⟩ :=
    Act.audited (a := a) (.grow chunk rfl rfl rfl rfl) h
  exact hGrown.record rfl fun k hAgree => ⟨_, rfl, List.Perm.refl _, hAgree.arena⟩

theorem Act.journal_extends (h : a.Act b) : a.journal.toList <+: b.journal.toList := by
  have hPush : ∀ event, b.journal = a.journal.push event →
      a.journal.toList <+: b.journal.toList := by
    intro event hJournal
    rw [hJournal, Array.toList_push]
    exact List.prefix_append _ _
  cases h with
  | grow _ _ _ _ hJournal => exact hPush _ hJournal
  | allocate _ _ _ _ _ _ hJournal => exact hPush _ hJournal
  | release _ _ _ _ hJournal => exact hPush _ hJournal
  | note _ _ _ _ _ hJournal => exact hPush _ hJournal

theorem Acts.journal_extends (h : a.Acts b) : a.journal.toList <+: b.journal.toList := by
  induction h with
  | refl => exact List.prefix_rfl
  | tail _ hAct ih => exact ih.trans hAct.journal_extends

theorem journal_extends_restart (a : Account) (chunk : Nat) :
    a.journal.toList <+: (a.restart chunk).journal.toList := by
  rw [restart, Array.toList_push, Array.toList_push, List.append_assoc]
  exact List.prefix_append _ _

end Account

namespace Session

variable {S : Type} [Supply S] {s s' u : Session S} {t : Shape} {r : Request}

/-- Nothing is ever taken out of the journal. -/
theorem Steady.journal_extends (hSteady : s.Steady t) (hAllows : s.Allows r)
    (hStep : s.step r = .ok u) : s.heap.journal.toList <+: u.heap.journal.toList := by
  by_cases hInit : r = .init
  · subst hInit
    have hAccount : u.heap.account.journal = u.heap.journal := rfl
    rcases hSteady.account_init hStep with ⟨_, _, _, hEq⟩ | ⟨_, _, hEq⟩
    · rw [← hAccount, hEq]
      exact List.prefix_rfl
    · rw [← hAccount, hEq]
      exact Account.journal_extends_restart s.heap.account _
  · exact (hSteady.acts hAllows hInit hStep).journal_extends

/-- The sessions that follow from one by requests among which no initialisation is refused. -/
inductive Recorded (s : Session S) : Session S → Prop where
  | start : Recorded s s
  | step {t u : Session S} {r : Request} (hRecorded : Recorded s t) (hAllows : t.Allows r)
      (hInit : r = .init → ∃ h, t.heap.init = .ok (.ok (), h)) (hStep : t.step r = .ok u) :
      Recorded s u

theorem Recorded.run {requests : List Request} (hRecorded : s.Recorded s')
    (hInit : ∀ r ∈ requests, r ≠ .init) (hPermits : s'.Permits requests) (hRun : s'.run requests = .ok u) :
    s.Recorded u := by
  induction requests generalizing s' with
  | nil =>
    cases hRun
    exact hRecorded
  | cons r requests ih =>
    rw [Session.run, bind_eq_ok_iff] at hRun
    obtain ⟨t, hStep, hRest⟩ := hRun
    obtain ⟨hFirst, hOthers⟩ := List.forall_mem_cons.mp hInit
    exact ih (hRecorded.step hPermits.1 (fun hEq => absurd hEq hFirst) hStep) hOthers
      (hPermits.2 t hStep) hRest

theorem Steady.audited (hSteady : s.Steady t) (hAudited : s.heap.account.Audited)
    (hRecorded : s.Recorded s') : (∃ v, s'.Steady v) ∧ s'.heap.account.Audited := by
  induction hRecorded with
  | start => exact ⟨⟨t, hSteady⟩, hAudited⟩
  | @step u v r _ hAllows hInit hStep ih =>
    obtain ⟨⟨w, hSteady'⟩, hAudited'⟩ := ih
    obtain ⟨s'', x, hRun, hSteady''⟩ := hSteady'.step hAllows
    rw [hStep] at hRun
    cases hRun
    refine ⟨⟨x, hSteady''⟩, ?_⟩
    by_cases hEq : r = .init
    · subst hEq
      obtain ⟨g, hDone⟩ := hInit rfl
      rcases hSteady'.account_init hStep with ⟨_, _, hRefused, _⟩ | ⟨_, _, hAccount⟩
      · rw [hDone] at hRefused
        cases hRefused
      · rw [hAccount]
        exact hAudited'.restart _
    · exact (hSteady'.acts hAllows hEq hStep).audited hAudited'

/-- Unless an initialisation is refused, books that are kept from the journal meet no contradiction.
They have the allocated blocks, and the arena at the size that its growths add up to. -/
theorem recorded_audited {supply : S} {config : Config} {h : Heap S}
    (hValid : config.validate = .ok ()) (hChunk : 32 ≤ config.chunkSize)
    (hWord : config.chunkSize < 2 ^ 64)
    (hBuild : Heap.ofArena (.fresh supply) config = .ok (.ok h))
    (hRecorded : Recorded ⟨h, []⟩ s) :
    (∃ books, Books.blank.audit s.heap.journal.toList = some books ∧
      books.entries.Perm ((held s.heap.blocks).map Books.entry) ∧
      books.arena = s.heap.currentSize ∧
      144 + (s.heap.journal.toList.map Event.increment).sum = s.heap.currentSize) ∧
      ∀ r u, s.Allows r → s.step r = .ok u →
        s.heap.journal.toList <+: u.heap.journal.toList := by
  have hConfig : config.Roomy := ⟨hValid, hChunk, hWord⟩
  obtain ⟨t, hStart⟩ := steady_of_built hConfig hBuild
  have hBlank : Account.Audited ⟨[], 144, {}, #[]⟩ := ⟨Books.blank, rfl, List.Perm.refl _, rfl⟩
  have hBuilt : h.account.Audited := Heap.ofArena_account hConfig hBuild ▸ hBlank.restart _
  obtain ⟨⟨u, hSteady⟩, books, hAudit, hAgree⟩ := hStart.audited hBuilt hRecorded
  have hArena : books.arena = s.heap.currentSize := hAgree.arena
  exact ⟨⟨books, hAudit, hAgree.entries, hArena, (Books.audit_arena hAudit).symm.trans hArena⟩,
    fun r v hAllows hStep => hSteady.journal_extends hAllows hStep⟩

theorem recorded_audited_move : ∃ (s : Session Cap) (books : Books),
    s.heap.journal.size = 6 ∧ Books.blank.audit s.heap.journal.toList = some books ∧
      books.entries = [(184, 56)] ∧ books.arena = 240 := by
  have hMoved : rehearse (⟨240⟩ : Cap) { chunkSize := 96 } [.allocate 8, .reallocate (some 144) 16]
      (fun s => s.heap.journal.size == 6 && (held s.heap.blocks).map Books.entry == [(184, 56)] &&
        s.heap.currentSize == 240) = true := by
    decide +kernel
  obtain ⟨h, s, hBuild, hPermits, hRun, hCheck⟩ := exists_of_rehearse hMoved
  simp only [Bool.and_eq_true, beq_iff_eq] at hCheck
  obtain ⟨⟨hEvents, hEntries⟩, hSize⟩ := hCheck
  obtain ⟨⟨books, hAudit, hPerm, hArena, _⟩, _⟩ := recorded_audited rfl (by decide) (by decide)
    hBuild (Recorded.start.run (by simp) hPermits hRun)
  rw [hEntries] at hPerm
  exact ⟨s, books, hEvents, hAudit, List.perm_singleton.mp hPerm, hArena.trans hSize⟩

end Session

end TaggedHeap
