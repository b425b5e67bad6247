import RhythmTiles.Proofs.Chord.Length
import RhythmTiles.Proofs.Score.Language

/-!
# What a reader of a score has in hand

When each operation of the reader gives a state, and which; and the invariant `Scan.Inv` of every
state that is reached. It ties the time that has passed to the events (`elapsed`), empties what the
mode does not use (`rest`, `name`, `pending`, `length`), and lets nothing but keys in (`keys`,
`played`). A track that is read keeps the tick limit and puts on keys only (`read_spec`).
-/

namespace RhythmTiles.Score

theorem checkTicks_eq_ok {ticks t : Nat} :
    checkTicks ticks = .ok t ↔ ticks ≤ maxTicks ∧ t = ticks := by
  unfold checkTicks
  by_cases h : maxTicks < ticks
  · rw [if_pos h]
    constructor
    · intro he
      cases he
    · rintro ⟨hle, -⟩
      omega
  · rw [if_neg h]
    constructor
    · intro he
      cases he
      exact ⟨Nat.not_lt.1 h, rfl⟩
    · rintro ⟨-, rfl⟩
      rfl

namespace Scan

variable {meter : Meter} {s s' : Scan} {position : Nat} {c : Char}

/-! ## The operations -/

theorem flushName_eq_ok (hname : ∀ c ∈ s.name, isNameChar c = true) :
    s.flushName = .ok s' ↔
      ∃ note, bodyEntries? s.name = some note ∧
        s' = { s with name := [], pending := s.pending ++ note } := by
  unfold flushName
  split
  · rename_i hempty
    have hnil : s.name = [] := List.isEmpty_iff.1 hempty
    rw [hnil, bodyEntries?_nil]
    constructor
    · intro h
      cases h
      refine ⟨[], rfl, ?_⟩
      rw [List.append_nil, ← hnil]
    · rintro ⟨note, hnote, rfl⟩
      cases hnote
      rw [List.append_nil, ← hnil]
  · rename_i hempty
    have hne : s.name ≠ [] := fun h => hempty (List.isEmpty_iff.2 h)
    rw [bodyEntries?_name hne hname, nameEntries?]
    cases Pitch.ofName? s.name with
    | none => simp
    | some p =>
      constructor
      · intro h
        cases h
        refine ⟨_, rfl, ?_⟩
        by_cases hmute : p = Pitch.mute <;> simp [hmute]
      · rintro ⟨note, hnote, rfl⟩
        cases hnote
        by_cases hmute : p = Pitch.mute <;> simp [hmute]

theorem advance_eq_ok {ticks : Nat} :
    s.advance ticks = .ok s' ↔
      s.elapsed + ticks ≤ maxTicks ∧ s' = { s with elapsed := s.elapsed + ticks } := by
  unfold advance
  simp only [Outcome.bind_eq_ok, checkTicks_eq_ok]
  constructor
  · rintro ⟨_, ⟨hle, rfl⟩, h⟩
    cases h
    exact ⟨hle, rfl⟩
  · rintro ⟨hle, rfl⟩
    exact ⟨_, ⟨hle, rfl⟩, rfl⟩

/-- A unit ends when it has letters, its time keeps the limits, and its chord can be played. -/
theorem finishUnit_eq_ok :
    s.finishUnit meter position = .ok s' ↔
      s.lengthUnits ≠ 0 ∧ s.elapsed + s.lengthUnits * meter.ticksPerUnit ≤ maxTicks ∧
      ∃ chord, Chord.expand s.pending (s.lengthUnits * meter.ticksPerUnit) meter.ornamentTotal
          position = .ok chord ∧
        s' = { s with
          elapsed := s.elapsed + s.lengthUnits * meter.ticksPerUnit
          events := s.events ++ chord.toArray
          pending := []
          lengthUnits := 0 } := by
  unfold finishUnit
  by_cases hzero : s.lengthUnits = 0
  · simp [hzero, Outcome.bind_eq_ok]
  · simp only [hzero, if_false, Outcome.bind_eq_ok, checkTicks_eq_ok, advance_eq_ok]
    constructor
    · rintro ⟨_, ⟨-, rfl⟩, _, ⟨hle, rfl⟩, chord, hchord, h⟩
      cases h
      exact ⟨hzero, hle, chord, hchord, rfl⟩
    · rintro ⟨-, hle, chord, hchord, rfl⟩
      exact ⟨_, ⟨Nat.le_of_add_left_le hle, rfl⟩, _, ⟨hle, rfl⟩, chord, hchord, rfl⟩

theorem finishRest_eq_ok :
    s.finishRest meter = .ok s' ↔
      s.elapsed + s.restUnits * meter.ticksPerUnit ≤ maxTicks ∧
      s' = { s with
        elapsed := s.elapsed + s.restUnits * meter.ticksPerUnit
        events := s.events.push (.delay (s.restUnits * meter.ticksPerUnit))
        restUnits := 0 } := by
  unfold finishRest
  simp only [Outcome.bind_eq_ok, checkTicks_eq_ok, advance_eq_ok]
  constructor
  · rintro ⟨_, ⟨-, rfl⟩, ⟨_, ⟨hle, rfl⟩, h⟩⟩
    cases h
    exact ⟨hle, rfl⟩
  · rintro ⟨hle, rfl⟩
    exact ⟨_, ⟨Nat.le_of_add_left_le hle, rfl⟩, _, ⟨hle, rfl⟩, rfl⟩

theorem addLength_eq_ok :
    s.apply meter position (.addLength c) = .ok s' ↔
      (s.lengthUnits + (Letter.units? c).getD 0) * meter.ticksPerUnit ≤ maxTicks ∧
      s' = { s with lengthUnits := s.lengthUnits + (Letter.units? c).getD 0 } := by
  unfold apply
  simp only [Outcome.bind_eq_ok, checkTicks_eq_ok]
  constructor
  · rintro ⟨_, ⟨hle, -⟩, h⟩
    cases h
    exact ⟨hle, rfl⟩
  · rintro ⟨hle, rfl⟩
    exact ⟨_, ⟨hle, rfl⟩, rfl⟩

theorem addRest_eq_ok :
    s.apply meter position (.addRest c) = .ok s' ↔
      (s.restUnits + (Letter.restUnits? c).getD 0) * meter.ticksPerUnit ≤ maxTicks ∧
      s' = { s with restUnits := s.restUnits + (Letter.restUnits? c).getD 0 } := by
  unfold apply
  simp only [Outcome.bind_eq_ok, checkTicks_eq_ok]
  constructor
  · rintro ⟨_, ⟨hle, -⟩, h⟩
    cases h
    exact ⟨hle, rfl⟩
  · rintro ⟨hle, rfl⟩
    exact ⟨_, ⟨hle, rfl⟩, rfl⟩

theorem pushGlyph_eq_ok {g : Glyph} (hname : ∀ c ∈ s.name, isNameChar c = true) :
    s.apply meter position (.pushGlyph g) = .ok s' ↔
      ∃ note, bodyEntries? s.name = some note ∧
        s' = { s with name := [], pending := s.pending ++ (note ++ [.glyph g]) } := by
  unfold apply
  simp only [Outcome.bind_eq_ok, flushName_eq_ok hname]
  constructor
  · rintro ⟨_, ⟨note, hnote, rfl⟩, h⟩
    cases h
    exact ⟨note, hnote, by rw [List.append_assoc]⟩
  · rintro ⟨note, hnote, rfl⟩
    exact ⟨_, ⟨note, hnote, rfl⟩, by rw [← List.append_assoc]; rfl⟩

theorem step_eq_ok :
    s.step meter position c = .ok s' ↔
      ∃ mode action next, transition s.mode (.ofChar c) = some (mode, action) ∧
        s.apply meter position action = .ok next ∧ s' = { next with mode } := by
  unfold step
  cases htransition : transition s.mode (.ofChar c) with
  | none => simp
  | some out =>
    obtain ⟨mode, action⟩ := out
    simp only [Outcome.bind_eq_ok]
    constructor
    · rintro ⟨next, happly, h⟩
      cases h
      exact ⟨mode, action, next, rfl, happly, rfl⟩
    · rintro ⟨mode', action', next, h, happly, rfl⟩
      cases h
      exact ⟨next, happly, rfl⟩

/-- A reader may come to its end between phrases, or in a rest, which ends there. -/
theorem finish_eq_ok {length : Nat} {track : Track} :
    s.finish meter length = .ok track ↔
      ∃ last : Scan, last.events.toList = track ∧
        ((s.mode = .idle ∨ s.mode = .closed) ∧ last = s ∨
          s.mode = .rest ∧ s.finishRest meter = .ok last) := by
  unfold finish
  cases hmode : s.mode with
  | idle | closed => simp
  | notes | chordClosed | length => simp
  | rest =>
    simp only [Outcome.bind_eq_ok]
    constructor
    · rintro ⟨last, hrest, h⟩
      cases h
      exact ⟨last, rfl, Or.inr ⟨trivial, hrest⟩⟩
    · rintro ⟨last, rfl, ⟨hbetween, -⟩ | ⟨-, hrest⟩⟩
      · simp at hbetween
      · exact ⟨last, hrest, rfl⟩

/-! ## What is kept -/

/-- What a state holds, whatever its mode. -/
structure Sound (s : Scan) : Prop where
  elapsed : s.elapsed = Track.ticks s.events.toList
  limit : s.elapsed ≤ maxTicks
  name : ∀ c ∈ s.name, isNameChar c = true
  pending : ∀ p, Entry.pitch p ∈ s.pending → Pitch.isKey p = true
  events : ∀ p, Event.on p ∈ s.events.toList → Pitch.isKey p = true

/-- What a state does not hold in its mode. -/
structure Clear (s : Scan) : Prop where
  rest : s.mode ≠ .rest → s.restUnits = 0
  name : s.mode ≠ .notes → s.name = []
  pending : s.mode = .idle ∨ s.mode = .rest ∨ s.mode = .closed → s.pending = []
  length : s.mode ≠ .length → s.lengthUnits = 0

/-- The invariant of the states that a reader reaches. -/
structure Inv (s : Scan) : Prop where
  sound : s.Sound
  clear : s.Clear

theorem inv_initial : Inv {} where
  sound := ⟨rfl, Nat.zero_le _, by simp, by simp, by simp⟩
  clear := ⟨fun _ => rfl, fun _ => rfl, fun _ => rfl, fun _ => rfl⟩

theorem Sound.of_mode (h : s.Sound) (mode : Mode) : Sound { s with mode } :=
  ⟨h.elapsed, h.limit, h.name, h.pending, h.events⟩

/-- A chord that is played leaves the time tied to the events. -/
theorem Sound.finishUnit (hs : s.Sound) (h : s.finishUnit meter position = .ok s') : s'.Sound := by
  obtain ⟨-, hle, chord, hchord, rfl⟩ := finishUnit_eq_ok.1 h
  refine ⟨?_, hle, hs.name, by simp, ?_⟩
  · simp [Chord.ticks_expand hchord, hs.elapsed]
  · intro p hp
    have hp : Event.on p ∈ s.events.toList ++ chord := by simpa using hp
    rcases List.mem_append.1 hp with hp | hp
    · exact hs.events p hp
    · exact hs.pending p (Chord.on_mem_expand hchord hp)

theorem Sound.finishRest (hs : s.Sound) (h : s.finishRest meter = .ok s') : s'.Sound := by
  obtain ⟨hle, rfl⟩ := finishRest_eq_ok.1 h
  refine ⟨?_, hle, hs.name, hs.pending, ?_⟩
  · simp [hs.elapsed, Event.ticks]
  · intro p hp
    exact hs.events p (by simpa using hp)

/-- A name that is known is mute, or a key. -/
theorem isKey_of_ofName {name : List Char} {p : Pitch} (h : Pitch.ofName? name = some p) :
    p = Pitch.mute ∨ Pitch.isKey p = true := by
  have hkey : ∀ r : Pitch, (if Pitch.isKey r = true then some r else none) = some p →
      Pitch.isKey p = true := by
    intro r hr
    split at hr
    · rename_i hkey
      cases hr
      exact hkey
    · cases hr
  unfold Pitch.ofName? at h
  split at h
  · cases h
    exact Or.inl rfl
  · dsimp only at h
    split at h
    · obtain ⟨r, -, hr⟩ := Option.bind_eq_some_iff.1 h
      exact Or.inr (hkey r hr)
    · obtain ⟨r, -, hr⟩ := Option.bind_eq_some_iff.1 h
      exact Or.inr (hkey r hr)

/-- A name adds nothing but a key. -/
theorem isKey_of_mem_nameEntries {name : List Char} {note : List Entry}
    (h : nameEntries? name = some note) {p : Pitch} (hp : Entry.pitch p ∈ note) :
    Pitch.isKey p = true := by
  obtain ⟨q, hq, rfl⟩ := Option.map_eq_some_iff.1 h
  split at hp
  · simp at hp
  · rename_i hmute
    rw [List.mem_singleton, Entry.pitch.injEq] at hp
    subst hp
    rcases isKey_of_ofName hq with hq | hq
    · exact absurd hq hmute
    · exact hq

theorem Sound.flush (hs : s.Sound) {note : List Entry} (h : bodyEntries? s.name = some note) :
    ∀ p, Entry.pitch p ∈ s.pending ++ note → Pitch.isKey p = true := by
  intro p hp
  rcases List.mem_append.1 hp with hp | hp
  · exact hs.pending p hp
  · by_cases hnil : s.name = []
    · rw [hnil, bodyEntries?_nil] at h
      cases h
      simp at hp
    · rw [bodyEntries?_name hnil hs.name] at h
      exact isKey_of_mem_nameEntries h hp

/-- Every action keeps what a state holds. -/
theorem Sound.apply (hs : s.Sound) {action : Action}
    (hname : ∀ c, action = .nameChar c → isNameChar c = true)
    (h : s.apply meter position action = .ok s') : s'.Sound := by
  cases action with
  | skip =>
    cases h
    exact hs
  | beginChord =>
    cases h
    exact ⟨hs.elapsed, hs.limit, by simp, by simp, hs.events⟩
  | nameChar c =>
    cases h
    refine ⟨hs.elapsed, hs.limit, ?_, hs.pending, hs.events⟩
    intro d hd
    rcases List.mem_append.1 hd with hd | hd
    · exact hs.name d hd
    · rw [List.mem_singleton.1 hd]
      exact hname c rfl
  | flushName =>
    obtain ⟨note, hnote, rfl⟩ := (flushName_eq_ok hs.name).1 h
    exact ⟨hs.elapsed, hs.limit, by simp, hs.flush hnote, hs.events⟩
  | pushGlyph g =>
    obtain ⟨note, hnote, rfl⟩ := (pushGlyph_eq_ok hs.name).1 h
    refine ⟨hs.elapsed, hs.limit, by simp, ?_, hs.events⟩
    intro p hp
    exact hs.flush hnote p (by simpa using hp)
  | addLength c =>
    obtain ⟨-, rfl⟩ := addLength_eq_ok.1 h
    exact ⟨hs.elapsed, hs.limit, hs.name, hs.pending, hs.events⟩
  | finishUnit => exact hs.finishUnit h
  | addRest c =>
    obtain ⟨-, rfl⟩ := addRest_eq_ok.1 h
    exact ⟨hs.elapsed, hs.limit, hs.name, hs.pending, hs.events⟩
  | finishRest => exact hs.finishRest h

/-! ## What is cleared -/

/-- Whatever the machine moves, what its new mode does not use is empty. -/
theorem Clear.apply {mode : Mode} {action : Action} (hs : s.Clear)
    (hname : ∀ c ∈ s.name, isNameChar c = true) (hmoves : Moves c s.mode mode action)
    (h : s.apply meter position action = .ok s') : Clear { s' with mode } := by
  obtain ⟨hrest, hname', hpending, hlength⟩ := hs
  generalize s.mode = old at hmoves hrest hname' hpending hlength
  -- what the old mode did not use was empty, and a move fills only what its new mode uses
  cases hmoves with
  | openChord =>
    cases h
    exact ⟨fun _ => hrest (by simp), by simp, by simp, by simp⟩
  | beginRest | growRest =>
    obtain ⟨-, rfl⟩ := addRest_eq_ok.1 h
    exact ⟨by simp, fun _ => hname' (by simp), fun _ => hpending (by simp),
      fun _ => hlength (by simp)⟩
  | gap | separate | fill =>
    cases h
    exact ⟨fun _ => hrest (by simp), fun _ => hname' (by simp), fun _ => hpending (by simp),
      fun _ => hlength (by simp)⟩
  | endRest =>
    obtain ⟨-, rfl⟩ := finishRest_eq_ok.1 h
    exact ⟨by simp, fun _ => hname' (by simp), fun _ => hpending (by simp),
      fun _ => hlength (by simp)⟩
  | growName =>
    cases h
    exact ⟨fun _ => hrest (by simp), by simp, by simp, fun _ => hlength (by simp)⟩
  | endName | closeChord =>
    obtain ⟨note, -, rfl⟩ := (flushName_eq_ok hname).1 h
    exact ⟨fun _ => hrest (by simp), by simp, by simp, fun _ => hlength (by simp)⟩
  | pushGlyph =>
    obtain ⟨note, -, rfl⟩ := (pushGlyph_eq_ok hname).1 h
    exact ⟨fun _ => hrest (by simp), by simp, by simp, fun _ => hlength (by simp)⟩
  | blankBehind =>
    cases h
    exact ⟨fun _ => hrest (by simp), fun _ => hname' (by simp), by simp, fun _ => hlength (by simp)⟩
  | openLength | blankWithin =>
    cases h
    exact ⟨fun _ => hrest (by simp), fun _ => hname' (by simp), by simp, by simp⟩
  | growLength =>
    obtain ⟨-, rfl⟩ := addLength_eq_ok.1 h
    exact ⟨fun _ => hrest (by simp), fun _ => hname' (by simp), by simp, by simp⟩
  | closeLength =>
    obtain ⟨-, -, chord, -, rfl⟩ := finishUnit_eq_ok.1 h
    exact ⟨fun _ => hrest (by simp), fun _ => hname' (by simp), by simp, by simp⟩

/-! ## Steps and runs -/

/-- **The invariant is kept by every character.** -/
theorem Inv.step (hinv : s.Inv) (h : s.step meter position c = .ok s') : s'.Inv := by
  obtain ⟨mode, action, next, htransition, happly, rfl⟩ := step_eq_ok.1 h
  have hmoves := moves_of_transition htransition
  have hname : ∀ d, action = .nameChar d → isNameChar d = true := by
    rintro d rfl
    generalize s.mode = old at hmoves
    cases hmoves with
    | growName hchar => exact hchar
  exact ⟨(hinv.sound.apply hname happly).of_mode mode,
    hinv.clear.apply hinv.sound.name hmoves happly⟩

theorem Inv.run {cs : List Char} (hinv : s.Inv) (h : s.run meter position cs = .ok s') :
    s'.Inv := by
  induction cs generalizing s position with
  | nil =>
    cases h
    exact hinv
  | cons c cs ih =>
    obtain ⟨next, hstep, hrun⟩ := Outcome.bind_eq_ok.1 h
    exact ih (hinv.step hstep) hrun

/-- A reader ends in a sound state, which gives its events: a last rest has been added. -/
theorem Inv.finish {length : Nat} {track : Track} (hinv : s.Inv)
    (h : s.finish meter length = .ok track) :
    ∃ last : Scan, last.Sound ∧ last.events.toList = track ∧
      last.elapsed = s.elapsed + s.restUnits * meter.ticksPerUnit := by
  obtain ⟨last, hevents, ⟨hmode, rfl⟩ | ⟨-, hrest⟩⟩ := finish_eq_ok.1 h
  · have hnone : last.restUnits = 0 := hinv.clear.rest (by rcases hmode with h | h <;> simp [h])
    exact ⟨last, hinv.sound, hevents, by rw [hnone, Nat.zero_mul, Nat.add_zero]⟩
  · have hsound := hinv.sound.finishRest hrest
    obtain ⟨-, rfl⟩ := finishRest_eq_ok.1 hrest
    exact ⟨_, hsound, hevents, rfl⟩

end Scan

/-- **A track that is read keeps the tick limit and puts on keys only.** -/
theorem read_spec {meter : Meter} {text : List Char} {track : Track}
    (h : read meter text = .ok track) :
    track.ticks ≤ maxTicks ∧ ∀ p, Event.on p ∈ track → Pitch.isKey p = true := by
  obtain ⟨s, hrun, hfinish⟩ := Outcome.bind_eq_ok.1 h
  obtain ⟨last, hlast, rfl, -⟩ := (Scan.inv_initial.run hrun).finish hfinish
  exact ⟨hlast.elapsed ▸ hlast.limit, hlast.events⟩

end RhythmTiles.Score
