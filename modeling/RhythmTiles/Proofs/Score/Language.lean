import RhythmTiles.Proofs.Score.Character
import RhythmTiles.Score.Scan

/-!
# The language of scores

What a score is and what it plays, said without a machine. A text spells a row of phrases
(`Spells`): units `(body)[code]` and runs of rest letters, with gaps between them. A body stands for
the entries of a chord (`bodyEntries?`), and letters stand for time (`letterSum`). A phrase then plays
a track (`Phrase.Plays`).
-/

namespace RhythmTiles.Score

/-! ## Texts -/

/-- A unit or a rest of a score. -/
inductive Phrase where
  /-- The text between the parentheses and the text between the square brackets. -/
  | unit (body code : List Char)
  /-- The letters of a rest. -/
  | rest (letters : List Char)
  deriving DecidableEq, Repr

/-- A phrase ends with the text, or with one character that is dropped. -/
def Ends (p : Char → Bool) (rest unread : List Char) : Prop :=
  (rest = [] ∧ unread = []) ∨ ∃ c, p c = true ∧ rest = c :: unread

/-- The text is a score of these phrases. -/
inductive Spells : List Char → List Phrase → Prop where
  | done : Spells [] []
  | gap {c : Char} {text : List Char} {phrases : List Phrase}
      (hc : isGap c = true) (h : Spells text phrases) : Spells (c :: text) phrases
  | unit {body blanks code fill rest text : List Char} {phrases : List Phrase}
      (hbody : ∀ c ∈ body, isBodyChar c = true) (hblanks : ∀ c ∈ blanks, Text.isBlank c = true)
      (hcode : ∀ c ∈ code, isCodeChar c = true) (hletter : ∃ c ∈ code, Letter.isLength c = true)
      (hfill : ∀ c ∈ fill, isFill c = true) (hend : Ends isSeparator rest text)
      (h : Spells text phrases) :
      Spells (['('] ++ body ++ [')'] ++ blanks ++ ['['] ++ code ++ [']'] ++ fill ++ rest)
        (.unit body code :: phrases)
  | rest {letters rest text : List Char} {phrases : List Phrase}
      (hne : letters ≠ []) (hletters : ∀ c ∈ letters, Letter.isRest c = true)
      (hend : Ends isGap rest text) (h : Spells text phrases) :
      Spells (letters ++ rest) (.rest letters :: phrases)

/-! ## Meaning -/

/-- What a note name stands for: a note, or nothing if it is mute. -/
def nameEntries? (name : List Char) : Option (List Entry) :=
  (Pitch.ofName? name).map fun p => if p = Pitch.mute then [] else [.pitch p]

/-- The entries of a chord: its longest runs of name characters are names, its glyphs stand for
themselves. -/
def bodyEntries? : List Char → Option (List Entry)
  | [] => some []
  | c :: body =>
    if isNameChar c then do
      let note ← nameEntries? (c :: body.takeWhile isNameChar)
      let others ← bodyEntries? (body.dropWhile isNameChar)
      pure (note ++ others)
    else
      (bodyEntries? body).map (((Glyph.ofChar? c).map Entry.glyph).toList ++ ·)
termination_by body => body.length
decreasing_by
  · exact Nat.lt_succ_of_le (List.dropWhile_sublist isNameChar).length_le
  · exact Nat.lt_succ_self _

/-- The letter units of a text. -/
def letterSum (cs : List Char) : Nat := (cs.filterMap Letter.units?).sum

namespace Phrase

def ticks (meter : Meter) : Phrase → Nat
  | unit _ code => letterSum code * meter.ticksPerUnit
  | rest letters => letterSum letters * meter.ticksPerUnit

/-- The track is what the phrase plays. -/
def Plays (meter : Meter) (phrase : Phrase) (track : Track) : Prop :=
  match phrase with
  | unit body _ =>
    ∃ entries, bodyEntries? body = some entries ∧ ∀ position,
      Chord.expand entries (phrase.ticks meter) meter.ornamentTotal position = .ok track
  | rest _ => track = [.delay (phrase.ticks meter)]

end Phrase

/-! ## Names in a body -/

@[simp] theorem bodyEntries?_nil : bodyEntries? [] = some [] := by
  rw [bodyEntries?]

/-- A character that is no part of a name is a glyph, or means nothing. -/
theorem bodyEntries?_cons {c : Char} (h : isNameChar c = false) (body : List Char) :
    bodyEntries? (c :: body) =
      (bodyEntries? body).map (((Glyph.ofChar? c).map Entry.glyph).toList ++ ·) := by
  rw [bodyEntries?]
  simp [h]

theorem bodyEntries?_name {name : List Char} (hne : name ≠ [])
    (h : ∀ c ∈ name, isNameChar c = true) : bodyEntries? name = nameEntries? name := by
  cases name with
  | nil => exact absurd rfl hne
  | cons c name =>
    obtain ⟨hc, hname⟩ := List.forall_mem_cons.1 h
    rw [bodyEntries?, if_pos hc, List.takeWhile_eq_self_iff.2 hname,
      List.dropWhile_eq_nil_iff.2 hname]
    simp

/-- A name ends where a character is no part of it. -/
theorem bodyEntries?_append {name : List Char} (h : ∀ c ∈ name, isNameChar c = true) {c : Char}
    (hc : isNameChar c = false) (body : List Char) :
    bodyEntries? (name ++ c :: body) =
      (bodyEntries? name).bind fun note => (bodyEntries? (c :: body)).map (note ++ ·) := by
  cases name with
  | nil => simp
  | cons d name =>
    have hne : d :: name ≠ [] := List.cons_ne_nil d name
    rw [bodyEntries?_name hne h]
    obtain ⟨hd, hname⟩ := List.forall_mem_cons.1 h
    have htake : (name ++ c :: body).takeWhile isNameChar = name := by
      rw [List.takeWhile_append_of_pos hname, List.takeWhile_cons_of_neg (by simp [hc]),
        List.append_nil]
    have hdrop : (name ++ c :: body).dropWhile isNameChar = c :: body := by
      rw [List.dropWhile_append_of_pos hname, List.dropWhile_cons_of_neg (by simp [hc])]
    rw [List.cons_append, bodyEntries?, if_pos hd, htake, hdrop]
    cases nameEntries? (d :: name) with
    | none => rfl
    | some note => cases bodyEntries? (c :: body) <;> rfl

/-! ## Letters -/

@[simp] theorem letterSum_nil : letterSum [] = 0 := rfl

theorem letterSum_cons (c : Char) (cs : List Char) :
    letterSum (c :: cs) = (Letter.units? c).getD 0 + letterSum cs := by
  cases h : Letter.units? c <;> simp [letterSum, h]

theorem units_of_isRest {c : Char} (h : Letter.isRest c = true) :
    Letter.units? c = Letter.restUnits? c := by
  unfold Letter.isRest Letter.restUnits? at h
  split at h <;> first | rfl | simp at h

/-- Every letter takes time. -/
theorem units_pos {c : Char} (h : Letter.isLength c = true) : 0 < (Letter.units? c).getD 0 := by
  cases hr : Letter.isRest c with
  | true =>
    rw [units_of_isRest hr]
    unfold Letter.isRest Letter.restUnits? at hr
    split at hr <;> first | decide | simp at hr
  | false =>
    unfold Letter.isRest at hr
    have hs : (Letter.soundUnits? c).isSome = true := by
      simpa [Letter.isLength, Letter.units?, hr] using h
    unfold Letter.soundUnits? at hs
    split at hs <;> first | decide | simp at hs

theorem units_eq_zero {c : Char} (h : Letter.isLength c = false) : (Letter.units? c).getD 0 = 0 := by
  unfold Letter.isLength at h
  cases hu : Letter.units? c with
  | none => rfl
  | some u => simp [hu] at h

/-- A text has letters just when it takes time. -/
theorem letterSum_eq_zero {cs : List Char} :
    letterSum cs = 0 ↔ ¬∃ c ∈ cs, Letter.isLength c = true := by
  induction cs with
  | nil => simp
  | cons c cs ih =>
    rw [letterSum_cons, Nat.add_eq_zero_iff, ih]
    constructor
    · rintro ⟨hc, hcs⟩ ⟨d, hd, hlen⟩
      rcases List.mem_cons.1 hd with rfl | hd
      · exact Nat.ne_of_gt (units_pos hlen) hc
      · exact hcs ⟨d, hd, hlen⟩
    · intro h
      refine ⟨units_eq_zero ?_, fun ⟨d, hd, hlen⟩ => h ⟨d, List.mem_cons_of_mem c hd, hlen⟩⟩
      cases hlen : Letter.isLength c with
      | false => rfl
      | true => exact absurd ⟨c, List.mem_cons_self, hlen⟩ h

end RhythmTiles.Score
