import RhythmTiles.Proofs.Grid.Ids
import RhythmTiles.Proofs.Grid.Placement
import RhythmTiles.Proofs.SideBySide
import RhythmTiles.Proofs.Tracker.Retention

/-!
# What a tracker tells apart

A tracker remembers texts, but the text of a note tells its milliseconds, its track and its pitch
(`NoteKey.id_inj`). Whatever is remembered in a run over notes and their marks is the event of a note
(`Tracker.isOfNotes_play`). So a run goes as if the tracker remembered keys: a call returns the keys that it
meets and that are not remembered (`Call.hasKey_returned_iff`). Main theorem: `Tracker.tells_notes_by_key`.
-/

namespace RhythmTiles

/-! ## Keys -/

/-- What tells notes apart. -/
structure NoteKey where
  millis : Int
  track : Nat
  pitch : Pitch
  deriving DecidableEq, Repr

def NoteKey.id (key : NoteKey) : String := noteId key.millis key.track key.pitch

theorem NoteKey.id_inj {a b : NoteKey} : a.id = b.id ↔ a = b := by
  obtain ⟨m, track, p⟩ := a
  obtain ⟨n, track', q⟩ := b
  rw [NoteKey.mk.injEq]
  exact noteId_eq_iff

variable {R : Type} [Quantity R]

def Note.key (note : Nat × Note R) : NoteKey := ⟨toMillis note.2.time, note.1, note.2.pitch⟩

theorem Note.event_fst (note : Nat × Note R) : (Note.event note).1 = (Note.key note).id := rfl

/-- Every event is that of a note. -/
def IsOfNotes (events : List (String × R)) : Prop := ∀ e ∈ events, ∃ note, Note.event note = e

/-- One of the events is that of a note with the key. -/
def HasKey (events : List (String × R)) (key : NoteKey) : Prop :=
  ∃ note, Note.event note ∈ events ∧ Note.key note = key

/-- Among events of notes the text of a key stands for notes with the key. -/
theorem IsOfNotes.hasKey_iff {events : List (String × R)} (h : IsOfNotes events) {key : NoteKey} :
    HasKey events key ↔ ∃ time, (key.id, time) ∈ events := by
  constructor
  · rintro ⟨note, hnote, rfl⟩
    exact ⟨note.2.time, hnote⟩
  · rintro ⟨time, hmem⟩
    obtain ⟨note, hnote⟩ := h _ hmem
    have hid : (Note.key note).id = key.id := congrArg Prod.fst hnote
    exact ⟨note, hnote ▸ hmem, NoteKey.id_inj.1 hid⟩

/-- The event of a mark is that of a note. -/
theorem Indicator.exists_note_of_mem_place {g : Geometry R} {rows : List (PlacedRow R)}
    {sections : List (Section R)} {timeline : Timeline R} {i : Indicator R}
    (h : i ∈ place g rows sections timeline) : ∃ note ∈ timeline.notes, Note.event note = i.event := by
  obtain ⟨places, -, -, hmarks⟩ :=
    exists_firsts g (RowWindow.ofRows rows sections).toArray [] timeline.notes
  obtain ⟨n, -, note, w, hnote, -, rfl⟩ := exists_of_mem_right hmarks h
  exact ⟨note, List.mem_of_getElem? hnote, rfl⟩

/-! ## Calls -/

namespace Call

/-- The call is given the event of a note, which is due and not marked as consumed. -/
structure Meets (lookback : R) (call : Call R) (note : Nat × Note R) : Prop where
  fresh : Note.event note ∈ call.fresh
  recent : call.now - lookback < note.2.time
  passed : note.2.time ≤ call.now

variable {t : Tracker R} {call : Call R}

theorem isOfNotes_returned (hcall : IsOfNotes call.events) : IsOfNotes (call.run t).2 :=
  fun e he => hcall e (mem_returned he).1

theorem isOfNotes_run (ht : IsOfNotes t.consumed) (hcall : IsOfNotes call.events) :
    IsOfNotes (call.run t).1.consumed := by
  intro e he
  rcases (mem_run_iff.1 he).1 with hknown | hreturned
  · exact ht e hknown
  · exact isOfNotes_returned hcall e hreturned

/-- The id of a key is remembered just if a note with the key is. -/
theorem isConsumed_iff_hasKey (ht : IsOfNotes t.consumed) (key : NoteKey) :
    t.isConsumed key.id = true ↔ HasKey t.consumed key := by
  rw [Tracker.isConsumed_iff, ht.hasKey_iff]

/-- **A call returns the keys that it meets and that are not remembered.** -/
theorem hasKey_returned_iff (ht : IsOfNotes t.consumed) (hcall : IsOfNotes call.events)
    (key : NoteKey) :
    HasKey (call.run t).2 key ↔
      (∃ note, call.Meets t.lookback note ∧ Note.key note = key) ∧ ¬HasKey t.consumed key := by
  rw [← isConsumed_iff_hasKey ht, Bool.not_eq_true]
  constructor
  · rintro ⟨note, hnote, rfl⟩
    obtain ⟨-, hrecent, hpassed, hunknown⟩ := mem_returned hnote
    rw [returned_eq] at hnote
    exact ⟨⟨note, ⟨(Tracker.mem_pass hnote).1, hrecent, hpassed⟩, rfl⟩, hunknown⟩
  · rintro ⟨⟨note, hmeets, rfl⟩, hunknown⟩
    rcases returned_of_due hmeets.fresh hmeets.recent hmeets.passed with hreturned | hknown
    · obtain ⟨⟨id, time⟩, hmem, rfl⟩ := List.mem_map.1 hreturned
      exact (isOfNotes_returned hcall).hasKey_iff.2 ⟨time, hmem⟩
    · rw [Note.event_fst, hunknown] at hknown
      cases hknown

/-- **Two notes that a call meets share an entry just if they have one key.** The entries are those before
the call prunes. -/
theorem shares_entry_iff {a b : Nat × Note R} (ha : call.Meets t.lookback a) :
    (∃ entry ∈ (t.pass call.now call.fresh).1.consumed,
      entry.1 = (Note.event a).1 ∧ entry.1 = (Note.event b).1) ↔ Note.key a = Note.key b := by
  rw [← NoteKey.id_inj, ← Note.event_fst, ← Note.event_fst]
  constructor
  · rintro ⟨entry, -, hfirst, hsecond⟩
    exact hfirst.symm.trans hsecond
  · intro hid
    have hdue : t.isDue a.2.time call.now = true := by simp [Tracker.isDue, ha.recent, ha.passed]
    obtain ⟨time, htime⟩ := Tracker.isConsumed_iff.1 (Tracker.isConsumed_of_isDue ha.fresh hdue)
    exact ⟨_, htime, rfl, hid⟩

end Call

/-! ## Runs -/

namespace Tracker

/-- Over notes and their marks, whatever is remembered is the event of a note. -/
theorem isOfNotes_play (options : TrackerOptions R) {moves : List (Move R)}
    (h : ∀ call, .call call ∈ moves → IsOfNotes call.events) :
    IsOfNotes ((new options).play moves).consumed := by
  have hnone : IsOfNotes ([] : List (String × R)) := fun e he => absurd he List.not_mem_nil
  induction moves using List.reverseRecOn with
  | nil => exact hnone
  | append_singleton moves move ih =>
    have hbefore := ih fun call hcall => h call (List.mem_append_left _ hcall)
    rw [play_append_singleton]
    cases move with
    | call call => exact Call.isOfNotes_run hbefore (h call (by simp))
    | reset => exact hnone

/-- **A tracker tells notes and marks apart by milliseconds, track and pitch.** Two ids are equal just if
these are. In a run over notes and their marks, two that a call meets share an entry just if they have one
key, and what the tracker remembers and returns is what it would if it remembered keys. -/
theorem tells_notes_by_key (options : TrackerOptions R) {moves : List (Move R)} {call : Call R}
    (hmoves : ∀ earlier, .call earlier ∈ moves → IsOfNotes earlier.events)
    (hcall : IsOfNotes call.events) :
    let t := (new options).play moves
    (∀ (m n : Int) (track track' : Nat) (p q : Pitch),
      noteId m track p = noteId n track' q ↔ m = n ∧ track = track' ∧ p = q) ∧
    (∀ (g : Geometry R) rows sections timeline, ∀ i ∈ Indicator.place g rows sections timeline,
      ∃ note ∈ timeline.notes, Note.event note = i.event) ∧
    (∀ (list : List (Indicator R)) now,
      ((Call.indicators list now).run t).2.map Prod.fst = (t.scanIndicators list now).fired) ∧
    (∀ a b, call.Meets t.lookback a → call.Meets t.lookback b →
      ((∃ entry ∈ (t.pass call.now call.fresh).1.consumed,
        entry.1 = a.2.id a.1 ∧ entry.1 = b.2.id b.1) ↔
        toMillis a.2.time = toMillis b.2.time ∧ a.1 = b.1 ∧ a.2.pitch = b.2.pitch)) ∧
    (∀ key, t.isConsumed key.id = true ↔ HasKey t.consumed key) ∧
    (∀ key, HasKey (call.run t).2 key ↔
      (∃ note, call.Meets t.lookback note ∧ Note.key note = key) ∧ ¬HasKey t.consumed key) ∧
    ∀ a b, Note.event a ∈ (call.run t).2 → Note.event b ∈ (call.run t).2 →
      Note.key a = Note.key b → Note.event a = Note.event b := by
  intro t
  have ht : IsOfNotes t.consumed := isOfNotes_play options hmoves
  refine ⟨fun m n track track' p q => noteId_eq_iff,
    fun g rows sections timeline i hi => Indicator.exists_note_of_mem_place hi,
    fun list now => Call.ids_returned t list now, fun a b ha _ => ?_,
    Call.isConsumed_iff_hasKey ht, Call.hasKey_returned_iff ht hcall, ?_⟩
  · have hshares := Call.shares_entry_iff (b := b) ha
    rwa [Note.key, Note.key, NoteKey.mk.injEq] at hshares
  · intro a b ha hb hkey
    have hnodup : ((call.run t).2.map Prod.fst).Nodup := by
      rw [Call.returned_eq]
      exact t.nodup_pass _ _
    have hid : (Note.event a).1 = (Note.event b).1 := by
      rw [Note.event_fst, Note.event_fst, hkey]
    exact List.inj_on_of_nodup_map hnodup ha hb hid

/-- Two notes of one key and one of another track, a millisecond before the start: the scan of notes returns
one of the two and the third. The marks behind it are of the first note, which is remembered, and of one a
millisecond after the start. -/
theorem tells_notes_by_key_below_zero :
    let options : TrackerOptions Rat := ⟨1 / 4, 5⟩
    let note : Pitch → Rat → Note Rat := fun pitch time => ⟨pitch, 0, 0, time, 0⟩
    let mark : String → Rat → Indicator Rat := fun id time => ⟨id, 1, 0, 0, 0, 0, time, false⟩
    let timeline : Timeline Rat := ⟨960, [], [⟨0, [note 60 (-1 / 1000), note 60 (-9 / 10000),
      note 60 (1 / 1000)]⟩, ⟨1, [note 60 (-1 / 1000)]⟩]⟩
    let scan : Call Rat := .notes timeline 0
    let marks : Call Rat := .indicators [mark "-1-0-60" (-1 / 1000), mark "1-0-60" (1 / 1000)] (1 / 100)
    let t : Tracker Rat := (new options).play [.call scan]
    (∀ earlier, Move.call earlier ∈ [Move.call scan] → IsOfNotes earlier.events) ∧
      IsOfNotes marks.events ∧
      (scan.run (new options)).2 = [("-1-0-60", -1 / 1000), ("-1-1-60", -1 / 1000)] ∧
      t.isConsumed "-1-0-60" = true ∧
      ¬HasKey (marks.run t).2 ⟨-1, 0, 60⟩ ∧ HasKey (marks.run t).2 ⟨1, 0, 60⟩ ∧
      noteId (-1) 0 60 ≠ noteId 1 0 60 := by
  intro options note mark timeline scan marks t
  have hscan : IsOfNotes scan.events := by
    intro e he
    obtain ⟨n, -, hn⟩ := List.mem_map.1 he
    exact ⟨n, hn⟩
  have hmoves : ∀ earlier, Move.call earlier ∈ [Move.call scan] → IsOfNotes earlier.events := by
    intro earlier hearlier
    cases List.mem_singleton.1 hearlier
    exact hscan
  have hmarks : IsOfNotes marks.events := by
    intro e he
    rcases List.mem_cons.1 he with rfl | he
    · exact ⟨(0, note 60 (-1 / 1000)), by decide +kernel⟩
    · rw [List.mem_singleton.1 he]
      exact ⟨(0, note 60 (1 / 1000)), by decide +kernel⟩
  obtain ⟨hids, -, -, -, hknown, hreturned, -⟩ := tells_notes_by_key options hmoves hmarks
  have hfirst : HasKey t.consumed ⟨-1, 0, 60⟩ :=
    ⟨(0, note 60 (-1 / 1000)), by decide +kernel, by decide +kernel⟩
  have hsecond : marks.Meets t.lookback (0, note 60 (1 / 1000)) :=
    ⟨by decide +kernel, by decide +kernel, by decide +kernel⟩
  have hunknown : ¬t.isConsumed (NoteKey.id ⟨1, 0, 60⟩) = true := by decide +kernel
  refine ⟨hmoves, hmarks, by decide +kernel, (hknown ⟨-1, 0, 60⟩).2 hfirst, ?_, ?_, ?_⟩
  · exact fun h => ((hreturned _).1 h).2 hfirst
  · refine (hreturned _).2 ⟨⟨_, hsecond, by decide +kernel⟩, ?_⟩
    rwa [← hknown]
  · intro hsame
    cases ((hids _ _ _ _ _ _).1 hsame).1

end Tracker

end RhythmTiles
