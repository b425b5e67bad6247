import RhythmTiles.Proofs.Score.Language

/-!
# What the rest of a text adds

The first character of a text tells how it is spelled (`Spells.of_open`, `Spells.of_isRest`,
`Spells.of_other`). So for each mode of the reader one can say what has to follow for the text to be
a score, and which events follow then: the rest of a chord, of its length, of a rest, and so on down
to the phrases that are still to come (`Remaining`). Each of these says what it takes of the next
character, and what is left to follow behind it (`remaining_cons` and its kin).
-/

namespace RhythmTiles.Score

/-! ## Runs of characters -/

/-- A run of characters of one kind, and what comes after it. -/
def Run (p : Char → Bool) (text : List Char) (after : List Char → List Char → Prop) : Prop :=
  ∃ run rest, text = run ++ rest ∧ (∀ c ∈ run, p c = true) ∧ after run rest

section

variable {p : Char → Bool} {after : List Char → List Char → Prop} {c : Char} {text : List Char}

theorem run_nil : Run p [] after ↔ after [] [] := by
  constructor
  · rintro ⟨run, rest, htext, -, hafter⟩
    obtain ⟨rfl, rfl⟩ := List.append_eq_nil_iff.1 htext.symm
    exact hafter
  · intro h
    exact ⟨[], [], rfl, by simp, h⟩

/-- A run is over, or goes on for a character. -/
theorem run_cons :
    Run p (c :: text) after ↔
      after [] (c :: text) ∨ (p c = true ∧ Run p text fun run rest => after (c :: run) rest) := by
  constructor
  · rintro ⟨run, rest, htext, hrun, hafter⟩
    cases run with
    | nil => exact Or.inl (htext ▸ hafter)
    | cons d run =>
      obtain ⟨rfl, rfl⟩ := List.cons.inj htext
      obtain ⟨hc, hrun⟩ := List.forall_mem_cons.1 hrun
      exact Or.inr ⟨hc, run, rest, rfl, hrun, hafter⟩
  · rintro (h | ⟨hc, run, rest, rfl, hrun, hafter⟩)
    · exact ⟨[], c :: text, rfl, by simp, h⟩
    · exact ⟨c :: run, rest, rfl, List.forall_mem_cons.2 ⟨hc, hrun⟩, hafter⟩

theorem ends_nil {unread : List Char} : Ends p [] unread ↔ unread = [] := by
  simp [Ends]

theorem ends_cons {unread : List Char} : Ends p (c :: text) unread ↔ p c = true ∧ unread = text := by
  constructor
  · rintro (⟨h, -⟩ | ⟨d, hd, h⟩)
    · cases h
    · obtain ⟨rfl, rfl⟩ := List.cons.inj h
      exact ⟨hd, rfl⟩
  · rintro ⟨hc, rfl⟩
    exact Or.inr ⟨c, hc, rfl⟩

end

/-! ## Kinds that exclude each other -/

theorem isGap_of_isRest {c : Char} (h : Letter.isRest c = true) : isGap c = false := by
  unfold Letter.isRest Letter.restUnits? at h
  split at h <;> first | decide | simp at h

theorem isFill_of_isSeparator {c : Char} (h : isSeparator c = true) : isFill c = false := by
  simp only [isSeparator, Bool.or_eq_true, beq_iff_eq] at h
  rcases h with rfl | rfl <;> decide

theorem isBodyChar_of_isNameChar {c : Char} (h : isNameChar c = true) : isBodyChar c = true := by
  simp [isBodyChar, h]

/-! ## How a text begins -/

section

variable {c : Char} {text : List Char} {phrases : List Phrase}

theorem spells_nil : Spells [] phrases ↔ phrases = [] := by
  constructor
  · intro h
    generalize hnil : ([] : List Char) = text at h
    cases h with
    | done => rfl
    | gap hc h => cases hnil
    | unit => simp at hnil
    | rest hne => exact absurd (List.append_eq_nil_iff.1 hnil.symm).1 hne
  · rintro rfl
    exact .done

/-- An opening parenthesis begins a unit. -/
theorem Spells.of_open (h : Spells ('(' :: text) phrases) :
    ∃ body blanks code fill rest unread later,
      text = body ++ ')' :: (blanks ++ '[' :: (code ++ ']' :: (fill ++ rest))) ∧
      (∀ c ∈ body, isBodyChar c = true) ∧ (∀ c ∈ blanks, Text.isBlank c = true) ∧
      (∀ c ∈ code, isCodeChar c = true) ∧ (∃ c ∈ code, Letter.isLength c = true) ∧
      (∀ c ∈ fill, isFill c = true) ∧ Ends isSeparator rest unread ∧ Spells unread later ∧
      phrases = .unit body code :: later := by
  generalize htext : '(' :: text = whole at h
  cases h with
  | done => cases htext
  | gap hc h =>
    cases htext
    cases hc
  | @unit body blanks code fill rest unread later hbody hblanks hcode hletter hfill hend h =>
    simp only [List.append_assoc, List.cons_append, List.nil_append, List.cons.injEq,
      true_and] at htext
    exact ⟨body, blanks, code, fill, rest, unread, later, htext, hbody, hblanks, hcode, hletter,
      hfill, hend, h, rfl⟩
  | @rest letters rest unread later hne hletters hend h =>
    cases letters with
    | nil => exact absurd rfl hne
    | cons c letters =>
      cases htext
      cases hletters '(' List.mem_cons_self

/-- A rest letter begins a rest. -/
theorem Spells.of_isRest (hc : Letter.isRest c = true) (h : Spells (c :: text) phrases) :
    ∃ letters rest unread later, text = letters ++ rest ∧
      (∀ d ∈ letters, Letter.isRest d = true) ∧ Ends isGap rest unread ∧ Spells unread later ∧
      phrases = .rest (c :: letters) :: later := by
  generalize htext : c :: text = whole at h
  cases h with
  | done => cases htext
  | gap hgap h =>
    obtain ⟨rfl, rfl⟩ := List.cons.inj htext
    rw [isGap_of_isRest hc] at hgap
    cases hgap
  | unit =>
    simp only [List.append_assoc, List.cons_append, List.nil_append, List.cons.injEq] at htext
    rw [htext.1] at hc
    cases hc
  | @rest letters rest unread later hne hletters hend h =>
    cases letters with
    | nil => exact absurd rfl hne
    | cons d letters =>
      obtain ⟨rfl, rfl⟩ := List.cons.inj htext
      exact ⟨letters, rest, unread, later, rfl, (List.forall_mem_cons.1 hletters).2, hend, h, rfl⟩

/-- Any other character is a gap. -/
theorem Spells.of_other (hopen : c ≠ '(') (hletter : Letter.isRest c = false)
    (h : Spells (c :: text) phrases) : isGap c = true ∧ Spells text phrases := by
  generalize htext : c :: text = whole at h
  cases h with
  | done => cases htext
  | gap hgap h =>
    obtain ⟨rfl, rfl⟩ := List.cons.inj htext
    exact ⟨hgap, h⟩
  | unit =>
    simp only [List.append_assoc, List.cons_append, List.nil_append, List.cons.injEq] at htext
    exact absurd htext.1 hopen
  | @rest letters rest unread later hne hletters hend h =>
    cases letters with
    | nil => exact absurd rfl hne
    | cons d letters =>
      obtain ⟨rfl, rfl⟩ := List.cons.inj htext
      rw [(List.forall_mem_cons.1 hletters).1] at hletter
      cases hletter

end

/-! ## What follows in each mode -/

section

variable (meter : Meter)

/-- The text is a row of phrases that play the track, and all time keeps the limit. -/
def Remaining (elapsed : Nat) (text : List Char) (track : Track) : Prop :=
  ∃ phrases tracks, Spells text phrases ∧ List.Forall₂ (Phrase.Plays meter) phrases tracks ∧
    elapsed + (phrases.map (Phrase.ticks meter)).sum ≤ maxTicks ∧ track = tracks.flatten

/-- The rest of a rest whose letters so far make `units`. -/
def InRest (elapsed units : Nat) (text : List Char) (track : Track) : Prop :=
  Run Letter.isRest text fun letters rest => ∃ unread later, Ends isGap rest unread ∧
    track = .delay ((units + letterSum letters) * meter.ticksPerUnit) :: later ∧
    Remaining meter (elapsed + (units + letterSum letters) * meter.ticksPerUnit) unread later

/-- What follows a unit. -/
def Closing (elapsed : Nat) (text : List Char) (track : Track) : Prop :=
  Run isFill text fun _ rest => ∃ unread, Ends isSeparator rest unread ∧
    Remaining meter elapsed unread track

/-- The rest of a length whose letters so far make `units`. -/
def InLength (elapsed : Nat) (entries : List Entry) (units : Nat) (text : List Char)
    (track : Track) : Prop :=
  Run isCodeChar text fun code rest => ∃ unread chord later, rest = ']' :: unread ∧
    units + letterSum code ≠ 0 ∧
    (∀ position, Chord.expand entries ((units + letterSum code) * meter.ticksPerUnit)
      meter.ornamentTotal position = .ok chord) ∧
    track = chord ++ later ∧
    Closing meter (elapsed + (units + letterSum code) * meter.ticksPerUnit) unread later

/-- What follows the parentheses. -/
def Behind (elapsed : Nat) (entries : List Entry) (text : List Char) (track : Track) : Prop :=
  Run Text.isBlank text fun _ rest => ∃ unread, rest = '[' :: unread ∧
    InLength meter elapsed entries 0 unread track

/-- The rest of a chord that has some entries, and a name that is begun. -/
def InNotes (elapsed : Nat) (name : List Char) (entries : List Entry) (text : List Char)
    (track : Track) : Prop :=
  Run isBodyChar text fun body rest => ∃ unread more, rest = ')' :: unread ∧
    bodyEntries? (name ++ body) = some more ∧ Behind meter elapsed (entries ++ more) unread track

end

variable {meter : Meter} {elapsed units : Nat} {entries : List Entry} {name text : List Char}
  {track : Track} {c : Char}

/-! ### At the end of the text -/

theorem remaining_nil : Remaining meter elapsed [] track ↔ elapsed ≤ maxTicks ∧ track = [] := by
  constructor
  · rintro ⟨phrases, tracks, hspells, hplays, hle, rfl⟩
    obtain rfl := spells_nil.1 hspells
    cases hplays
    exact ⟨by simpa using hle, rfl⟩
  · rintro ⟨hle, rfl⟩
    exact ⟨[], [], .done, .nil, by simpa using hle, rfl⟩

theorem Remaining.le (h : Remaining meter elapsed text track) : elapsed ≤ maxTicks := by
  obtain ⟨phrases, tracks, -, -, hle, -⟩ := h
  exact Nat.le_of_add_right_le hle

theorem inRest_nil :
    InRest meter elapsed units [] track ↔
      elapsed + units * meter.ticksPerUnit ≤ maxTicks ∧
        track = [.delay (units * meter.ticksPerUnit)] := by
  simp [InRest, run_nil, ends_nil, remaining_nil, and_comm]

theorem closing_nil : Closing meter elapsed [] track ↔ elapsed ≤ maxTicks ∧ track = [] := by
  simp [Closing, run_nil, ends_nil, remaining_nil]

theorem inLength_nil : ¬InLength meter elapsed entries units [] track := by
  simp [InLength, run_nil]

theorem behind_nil : ¬Behind meter elapsed entries [] track := by
  simp [Behind, run_nil]

theorem inNotes_nil : ¬InNotes meter elapsed name entries [] track := by
  simp [InNotes, run_nil]

/-! ### One character on -/

/-- A unit that is opened is what its chord, its length and its end add. -/
theorem remaining_open :
    Remaining meter elapsed ('(' :: text) track ↔ InNotes meter elapsed [] [] text track := by
  constructor
  · rintro ⟨phrases, tracks, hspells, hplays, hle, rfl⟩
    obtain ⟨body, blanks, code, fill, rest, unread, later, rfl, hbody, hblanks, hcode, hletter,
      hfill, hend, h, rfl⟩ := hspells.of_open
    obtain ⟨chord, tracks, ⟨more, hmore, hchord⟩, hlater, rfl⟩ :=
      List.forall₂_cons_left_iff.1 hplays
    simp only [List.map_cons, List.sum_cons, ← Nat.add_assoc] at hle
    refine ⟨body, _, rfl, hbody, _, more, rfl, hmore, blanks, _, rfl, hblanks, _, rfl,
      code, _, rfl, hcode, _, chord, tracks.flatten, rfl, ?_, ?_, rfl,
      fill, _, rfl, hfill, unread, hend, ?_⟩
    · rw [Nat.zero_add]
      exact fun hzero => letterSum_eq_zero.1 hzero hletter
    · rw [Nat.zero_add]
      exact hchord
    · rw [Nat.zero_add]
      exact ⟨later, tracks, h, hlater, hle, rfl⟩
  · rintro ⟨body, _, rfl, hbody, _, more, rfl, hmore, blanks, _, rfl, hblanks, _, rfl,
      code, _, rfl, hcode, _, chord, later, rfl, hletter, hchord, rfl, fill, rest, rfl, hfill,
      unread, hend, phrases, tracks, h, hplays, hle, rfl⟩
    rw [Nat.zero_add] at hletter hchord hle
    have hletter : ∃ c ∈ code, Letter.isLength c = true := by
      by_contra hnone
      exact hletter (letterSum_eq_zero.2 hnone)
    refine ⟨.unit body code :: phrases, chord :: tracks, ?_, .cons ⟨more, hmore, hchord⟩ hplays, ?_,
      rfl⟩
    · have hunit := Spells.unit hbody hblanks hcode hletter hfill hend h
      simpa only [List.append_assoc, List.cons_append, List.nil_append] using hunit
    · simpa only [List.map_cons, List.sum_cons, ← Nat.add_assoc, Phrase.ticks] using hle

theorem remaining_rest (hc : Letter.isRest c = true) :
    Remaining meter elapsed (c :: text) track ↔
      InRest meter elapsed ((Letter.units? c).getD 0) text track := by
  constructor
  · rintro ⟨phrases, tracks, hspells, hplays, hle, rfl⟩
    obtain ⟨letters, rest, unread, later, rfl, hletters, hend, h, rfl⟩ := hspells.of_isRest hc
    obtain ⟨_, tracks, rfl, hlater, rfl⟩ := List.forall₂_cons_left_iff.1 hplays
    simp only [List.map_cons, List.sum_cons, ← Nat.add_assoc, Phrase.ticks, letterSum_cons] at hle
    refine ⟨letters, rest, rfl, hletters, unread, tracks.flatten, hend, ?_, later, tracks, h,
      hlater, hle, rfl⟩
    simp [Phrase.ticks, letterSum_cons]
  · rintro ⟨letters, rest, rfl, hletters, unread, _, hend, rfl, phrases, tracks, h, hplays, hle,
      rfl⟩
    refine ⟨.rest (c :: letters) :: phrases,
      [.delay (Phrase.ticks meter (.rest (c :: letters)))] :: tracks, ?_, .cons rfl hplays, ?_, ?_⟩
    · exact .rest (List.cons_ne_nil c letters) (List.forall_mem_cons.2 ⟨hc, hletters⟩) hend h
    · simpa only [List.map_cons, List.sum_cons, ← Nat.add_assoc, Phrase.ticks, letterSum_cons]
        using hle
    · simp [Phrase.ticks, letterSum_cons]

theorem remaining_gap (hopen : c ≠ '(') (hletter : Letter.isRest c = false) :
    Remaining meter elapsed (c :: text) track ↔
      isGap c = true ∧ Remaining meter elapsed text track := by
  constructor
  · rintro ⟨phrases, tracks, hspells, hplays, hle, rfl⟩
    obtain ⟨hgap, h⟩ := hspells.of_other hopen hletter
    exact ⟨hgap, phrases, tracks, h, hplays, hle, rfl⟩
  · rintro ⟨hgap, phrases, tracks, h, hplays, hle, rfl⟩
    exact ⟨phrases, tracks, .gap hgap h, hplays, hle, rfl⟩

theorem remaining_cons :
    Remaining meter elapsed (c :: text) track ↔
      if c = '(' then InNotes meter elapsed [] [] text track
      else if Letter.isRest c then InRest meter elapsed ((Letter.units? c).getD 0) text track
      else isGap c = true ∧ Remaining meter elapsed text track := by
  split_ifs with hopen hletter
  · rw [hopen]
    exact remaining_open
  · exact remaining_rest hletter
  · exact remaining_gap hopen (by simpa using hletter)

theorem inRest_cons :
    InRest meter elapsed units (c :: text) track ↔
      if Letter.isRest c then
        InRest meter elapsed (units + (Letter.units? c).getD 0) text track
      else isGap c = true ∧ ∃ later, track = .delay (units * meter.ticksPerUnit) :: later ∧
        Remaining meter (elapsed + units * meter.ticksPerUnit) text later := by
  unfold InRest
  rw [run_cons]
  split_ifs with hletter
  · have hgap := isGap_of_isRest hletter
    simp only [ends_cons, hgap, Bool.false_eq_true, false_and, exists_false, false_or, hletter,
      true_and, letterSum_cons, ← Nat.add_assoc]
  · simp only [ends_cons, hletter, Bool.false_eq_true, false_and, or_false, letterSum_nil,
      Nat.add_zero]
    constructor
    · rintro ⟨unread, later, ⟨hgap, rfl⟩, rfl, h⟩
      exact ⟨hgap, later, rfl, h⟩
    · rintro ⟨hgap, later, rfl, h⟩
      exact ⟨text, later, ⟨hgap, rfl⟩, rfl, h⟩

theorem closing_cons :
    Closing meter elapsed (c :: text) track ↔
      if isSeparator c then Remaining meter elapsed text track
      else isFill c = true ∧ Closing meter elapsed text track := by
  unfold Closing
  rw [run_cons]
  split_ifs with hseparator
  · have hfill := isFill_of_isSeparator hseparator
    simp only [ends_cons, hseparator, true_and, exists_eq_left, hfill, Bool.false_eq_true,
      false_and, or_false]
  · simp only [ends_cons, hseparator, Bool.false_eq_true, false_and, exists_false, false_or]

theorem inLength_cons :
    InLength meter elapsed entries units (c :: text) track ↔
      if Letter.isLength c then
        InLength meter elapsed entries (units + (Letter.units? c).getD 0) text track
      else if Text.isBlank c then InLength meter elapsed entries units text track
      else c = ']' ∧ units ≠ 0 ∧ ∃ chord later,
        (∀ position, Chord.expand entries (units * meter.ticksPerUnit) meter.ornamentTotal
          position = .ok chord) ∧
        track = chord ++ later ∧
        Closing meter (elapsed + units * meter.ticksPerUnit) text later := by
  unfold InLength
  rw [run_cons]
  split_ifs with hletter hblank
  · have hclose : c ≠ ']' := by rintro rfl; cases hletter
    simp only [List.cons.injEq, hclose, false_and, exists_false, false_or, isCodeChar, hletter,
      Bool.true_or, true_and, letterSum_cons, ← Nat.add_assoc]
  · have hclose : c ≠ ']' := by rintro rfl; cases hblank
    have hunits : (Letter.units? c).getD 0 = 0 := units_eq_zero (by simpa using hletter)
    simp only [List.cons.injEq, hclose, false_and, exists_false, false_or, isCodeChar, hblank,
      Bool.or_true, true_and, letterSum_cons, hunits, Nat.zero_add]
  · simp only [isCodeChar, hletter, hblank, Bool.false_eq_true, Bool.or_false, false_and, or_false,
      letterSum_nil, Nat.add_zero, List.cons.injEq]
    constructor
    · rintro ⟨unread, chord, later, ⟨rfl, rfl⟩, hunits, hchord, rfl, h⟩
      exact ⟨rfl, hunits, chord, later, hchord, rfl, h⟩
    · rintro ⟨rfl, hunits, chord, later, hchord, rfl, h⟩
      exact ⟨text, chord, later, ⟨rfl, rfl⟩, hunits, hchord, rfl, h⟩

theorem behind_cons :
    Behind meter elapsed entries (c :: text) track ↔
      if Text.isBlank c then Behind meter elapsed entries text track
      else c = '[' ∧ InLength meter elapsed entries 0 text track := by
  unfold Behind
  rw [run_cons]
  split_ifs with hblank
  · have hopen : c ≠ '[' := by rintro rfl; cases hblank
    simp only [List.cons.injEq, hopen, false_and, exists_false, false_or, hblank, true_and]
  · simp only [hblank, Bool.false_eq_true, false_and, or_false, List.cons.injEq]
    constructor
    · rintro ⟨unread, ⟨rfl, rfl⟩, h⟩
      exact ⟨rfl, h⟩
    · rintro ⟨rfl, h⟩
      exact ⟨text, ⟨rfl, rfl⟩, h⟩

/-- The entries that a character adds to a chord when it is no part of a name. -/
def glyphEntries (c : Char) : List Entry := ((Glyph.ofChar? c).map Entry.glyph).toList

theorem bodyEntries?_break {body : List Char} {more : List Entry}
    (hname : ∀ c ∈ name, isNameChar c = true) (hc : isNameChar c = false) :
    bodyEntries? (name ++ c :: body) = some more ↔
      ∃ note others, bodyEntries? name = some note ∧ bodyEntries? body = some others ∧
        more = note ++ (glyphEntries c ++ others) := by
  rw [bodyEntries?_append hname hc, bodyEntries?_cons hc]
  simp only [Option.bind_eq_some_iff, Option.map_eq_some_iff, glyphEntries]
  constructor
  · rintro ⟨note, hnote, _, ⟨others, hothers, rfl⟩, rfl⟩
    exact ⟨note, others, hnote, hothers, rfl⟩
  · rintro ⟨note, others, hnote, hothers, rfl⟩
    exact ⟨note, hnote, _, ⟨others, hothers, rfl⟩, rfl⟩

/-- A character that is no part of a name ends the name that is begun. -/
theorem inNotes_break (hname : ∀ c ∈ name, isNameChar c = true) (hbody : isBodyChar c = true)
    (hc : isNameChar c = false) :
    InNotes meter elapsed name entries (c :: text) track ↔
      ∃ note, bodyEntries? name = some note ∧
        InNotes meter elapsed [] (entries ++ (note ++ glyphEntries c)) text track := by
  have hclose : c ≠ ')' := by rintro rfl; cases hbody
  unfold InNotes
  rw [run_cons]
  simp only [List.cons.injEq, hclose, false_and, exists_false, false_or, hbody, true_and,
    bodyEntries?_break hname hc, List.nil_append]
  constructor
  · rintro ⟨body, rest, rfl, hall, unread, _, rfl, ⟨note, others, hnote, hothers, rfl⟩, h⟩
    refine ⟨note, hnote, body, _, rfl, hall, unread, others, rfl, hothers, ?_⟩
    simpa only [List.append_assoc] using h
  · rintro ⟨note, hnote, body, rest, rfl, hall, unread, others, rfl, hothers, h⟩
    refine ⟨body, _, rfl, hall, unread, _, rfl, ⟨note, others, hnote, hothers, rfl⟩, ?_⟩
    simpa only [List.append_assoc] using h

theorem inNotes_close :
    InNotes meter elapsed name entries (')' :: text) track ↔
      ∃ note, bodyEntries? name = some note ∧
        Behind meter elapsed (entries ++ note) text track := by
  have hbody : isBodyChar ')' = false := by decide
  unfold InNotes
  rw [run_cons]
  simp only [hbody, Bool.false_eq_true, false_and, or_false, List.append_nil, List.cons.injEq,
    true_and]
  constructor
  · rintro ⟨unread, note, rfl, hnote, h⟩
    exact ⟨note, hnote, h⟩
  · rintro ⟨note, hnote, h⟩
    exact ⟨text, note, rfl, hnote, h⟩

theorem inNotes_name (hc : isNameChar c = true) :
    InNotes meter elapsed name entries (c :: text) track ↔
      InNotes meter elapsed (name ++ [c]) entries text track := by
  have hclose : c ≠ ')' := by rintro rfl; cases hc
  unfold InNotes
  rw [run_cons]
  simp only [List.cons.injEq, hclose, false_and, exists_false, false_or,
    isBodyChar_of_isNameChar hc, true_and, List.append_assoc, List.cons_append, List.nil_append]

theorem glyph_of_isBlank (h : Text.isBlank c = true) : Glyph.ofChar? c = none := by
  unfold Glyph.ofChar?
  split <;> first | rfl | exact absurd h (by decide)

theorem inNotes_cons (hname : ∀ c ∈ name, isNameChar c = true) :
    InNotes meter elapsed name entries (c :: text) track ↔
      if isNameChar c then InNotes meter elapsed (name ++ [c]) entries text track
      else if Text.isBlank c then
        ∃ note, bodyEntries? name = some note ∧
          InNotes meter elapsed [] (entries ++ note) text track
      else if c = ')' then
        ∃ note, bodyEntries? name = some note ∧ Behind meter elapsed (entries ++ note) text track
      else ∃ g, Glyph.ofChar? c = some g ∧ ∃ note, bodyEntries? name = some note ∧
        InNotes meter elapsed [] (entries ++ (note ++ [.glyph g])) text track := by
  split_ifs with hc hblank hclose
  · exact inNotes_name hc
  · have hbody : isBodyChar c = true := by simp [isBodyChar, hblank]
    rw [inNotes_break hname hbody (by simpa using hc)]
    simp [glyphEntries, glyph_of_isBlank hblank]
  · rw [hclose]
    exact inNotes_close
  · cases hg : Glyph.ofChar? c with
    | none =>
      have hbody : isBodyChar c = false := by simp [isBodyChar, hc, hblank, hg]
      simp [InNotes, run_cons, hbody, hclose]
    | some g =>
      have hbody : isBodyChar c = true := by simp [isBodyChar, hg]
      rw [inNotes_break hname hbody (by simpa using hc)]
      simp [glyphEntries, hg]

/-! ### The limit -/

theorem InRest.le (h : InRest meter elapsed units text track) :
    elapsed + units * meter.ticksPerUnit ≤ maxTicks := by
  obtain ⟨letters, rest, -, -, unread, later, -, -, h⟩ := h
  have hle := h.le
  rw [Nat.add_mul, ← Nat.add_assoc] at hle
  exact Nat.le_of_add_right_le hle

theorem Closing.le (h : Closing meter elapsed text track) : elapsed ≤ maxTicks := by
  obtain ⟨fill, rest, -, -, unread, -, h⟩ := h
  exact h.le

theorem InLength.le (h : InLength meter elapsed entries units text track) :
    elapsed + units * meter.ticksPerUnit ≤ maxTicks := by
  obtain ⟨code, rest, -, -, unread, chord, later, -, -, -, -, h⟩ := h
  have hle := h.le
  rw [Nat.add_mul, ← Nat.add_assoc] at hle
  exact Nat.le_of_add_right_le hle

end RhythmTiles.Score
