import Mathlib
import RhythmTiles.Score.Grammar

/-!
# The characters of a score

What the grammar's machine does with a character, by what the character is: a blank, a digit, a rest
letter, a glyph. The machine looks at a class that it finds by trying one kind after the other; the
kinds have no character in common, so the class can be forgotten (`transition_idle` and its kin). `Moves`
lists what the machine can do at all.
-/

namespace RhythmTiles.Score

/-! ## Kinds of characters -/

/-- What may stand anywhere between units: blanks, digits, angle brackets and braces. -/
def isFill (c : Char) : Bool :=
  Text.isBlank c || c.isDigit || c == '<' || c == '>' || c == '\x7b' || c == '\x7d'

/-- What ends a unit. -/
def isSeparator (c : Char) : Bool := c == ',' || c == ';'

/-- What ends a rest. -/
def isGap (c : Char) : Bool := isFill c || isSeparator c

/-- What note names are made of. -/
def isNameChar (c : Char) : Bool := c.isAlpha || c.isDigit || c == '#' || c == '-'

/-- What may stand between parentheses. -/
def isBodyChar (c : Char) : Bool := isNameChar c || Text.isBlank c || (Glyph.ofChar? c).isSome

/-- What may stand between square brackets. -/
def isCodeChar (c : Char) : Bool := Letter.isLength c || Text.isBlank c

/-! ## Where the kinds lie -/

theorem toNat_of_isBlank {c : Char} (h : Text.isBlank c = true) : c.toNat ≤ 32 ∨ 128 ≤ c.toNat := by
  simp only [Text.isBlank, Bool.or_eq_true, Bool.and_eq_true, decide_eq_true_eq, beq_iff_eq,
    Char.le_def, UInt32.le_iff_toNat_le] at h
  rcases h with (((((((((⟨_, h⟩ | h) | h) | h) | h) | ⟨h, _⟩) | h) | h) | h) | h) | h
  · exact Or.inl (Nat.le_trans h (by decide))
  · subst h; decide
  · subst h; decide
  · subst h; decide
  · subst h; decide
  · exact Or.inr (Nat.le_trans (by decide) h)
  all_goals subst h; decide

theorem toNat_of_isAlpha {c : Char} (h : c.isAlpha = true) :
    65 ≤ c.toNat ∧ c.toNat ≤ 90 ∨ 97 ≤ c.toNat ∧ c.toNat ≤ 122 := by
  simpa [Char.isAlpha, Char.isUpper, Char.isLower, UInt32.le_iff_toNat_le] using h

theorem isAlpha_of_isRest {c : Char} (h : Letter.isRest c = true) : c.isAlpha = true := by
  unfold Letter.isRest Letter.restUnits? at h
  split at h <;> first | rfl | simp at h

theorem isAlpha_of_isLength {c : Char} (h : Letter.isLength c = true) : c.isAlpha = true := by
  cases hr : Letter.isRest c with
  | true => exact isAlpha_of_isRest hr
  | false =>
    unfold Letter.isRest at hr
    have hs : (Letter.soundUnits? c).isSome = true := by
      simpa [Letter.isLength, Letter.units?, hr] using h
    unfold Letter.soundUnits? at hs
    split at hs <;> first | rfl | simp at hs

theorem isDigit_of_isBlank {c : Char} (h : Text.isBlank c = true) : c.isDigit = false := by
  have hb := toNat_of_isBlank h
  cases hd : c.isDigit with
  | false => rfl
  | true =>
    have hdigit : 48 ≤ c.toNat ∧ c.toNat ≤ 57 := Char.isDigit_iff_toNat.1 hd
    omega

theorem isAlpha_of_isBlank {c : Char} (h : Text.isBlank c = true) : c.isAlpha = false := by
  have hb := toNat_of_isBlank h
  cases ha : c.isAlpha with
  | false => rfl
  | true =>
    have := toNat_of_isAlpha ha
    omega

theorem isAlpha_of_isDigit {c : Char} (h : c.isDigit = true) : c.isAlpha = false := by
  have hdigit : 48 ≤ c.toNat ∧ c.toNat ≤ 57 := Char.isDigit_iff_toNat.1 h
  cases ha : c.isAlpha with
  | false => rfl
  | true =>
    have := toNat_of_isAlpha ha
    omega

theorem isRest_eq_false {c : Char} (h : c.isAlpha = false) : Letter.isRest c = false := by
  cases hr : Letter.isRest c with
  | false => rfl
  | true => rw [isAlpha_of_isRest hr] at h; exact h

theorem isLength_eq_false {c : Char} (h : c.isAlpha = false) : Letter.isLength c = false := by
  cases hl : Letter.isLength c with
  | false => rfl
  | true => rw [isAlpha_of_isLength hl] at h; exact h

/-! ## Marks -/

/-- The characters with a meaning of their own; all others are blanks, digits, letters or nothing. -/
def marks : List Char :=
  ['<', '>', '\x7b', '\x7d', ',', ';', '(', ')', '[', ']', '#', '-', '.', '~', '$', '@', '%', '!',
    '^', '&']

theorem glyph_of_not_mark {c : Char} (h : c ∉ marks) : Glyph.ofChar? c = none := by
  unfold Glyph.ofChar?
  split <;> first | rfl | exact absurd (by decide) h

theorem ofChar_of_not_mark {c : Char} (h : c ∉ marks) :
    CharClass.ofChar c =
      if Text.isBlank c then .whitespace else if c.isDigit then .digit c
      else if c.isAlpha then .letter c else .other c := by
  have hg := glyph_of_not_mark h
  simp only [marks, List.mem_cons, List.not_mem_nil, or_false, not_or] at h
  simp [CharClass.ofChar, hg, CharClass.ofPlain, h]

theorem ne_of_not_mark {c d : Char} (h : c ∉ marks) (hd : d ∈ marks) : c ≠ d := by
  rintro rfl
  exact h hd

theorem beq_of_not_mark {c d : Char} (h : c ∉ marks) (hd : d ∈ marks) : (c == d) = false :=
  beq_eq_false_iff_ne.2 (ne_of_not_mark h hd)

theorem isNameChar_of_not_mark {c : Char} (h : c ∉ marks) :
    isNameChar c = (c.isAlpha || c.isDigit) := by
  have hsharp : (c == '#') = false := beq_of_not_mark h (by decide)
  have hdash : (c == '-') = false := beq_of_not_mark h (by decide)
  simp [isNameChar, hsharp, hdash]

theorem isFill_of_not_mark {c : Char} (h : c ∉ marks) :
    isFill c = (Text.isBlank c || c.isDigit) := by
  have hless : (c == '<') = false := beq_of_not_mark h (by decide)
  have hmore : (c == '>') = false := beq_of_not_mark h (by decide)
  have hopen : (c == '\x7b') = false := beq_of_not_mark h (by decide)
  have hclose : (c == '\x7d') = false := beq_of_not_mark h (by decide)
  simp [isFill, hless, hmore, hopen, hclose]

theorem isSeparator_of_not_mark {c : Char} (h : c ∉ marks) : isSeparator c = false := by
  have hcomma : (c == ',') = false := beq_of_not_mark h (by decide)
  have hsemicolon : (c == ';') = false := beq_of_not_mark h (by decide)
  simp [isSeparator, hcomma, hsemicolon]

/-- What is decided of every mark. -/
theorem forall_marks {P : Char → Prop} [DecidablePred P]
    (h : (marks.all fun c => decide (P c)) = true) : ∀ c, c ∈ marks → P c := by
  intro c hc
  exact of_decide_eq_true (List.all_eq_true.1 h c hc)

/-! ## The machine, mode by mode -/

theorem transition_idle (c : Char) :
    transition .idle (.ofChar c) =
      if c = '(' then some (.notes, .beginChord)
      else if Letter.isRest c then some (.rest, .addRest c)
      else if isGap c then some (.idle, .skip)
      else none := by
  by_cases hm : c ∈ marks
  · revert c
    exact forall_marks (by decide)
  · have hopen : c ≠ '(' := ne_of_not_mark hm (by decide)
    rw [ofChar_of_not_mark hm, if_neg hopen, isGap, isFill_of_not_mark hm,
      isSeparator_of_not_mark hm]
    cases hb : Text.isBlank c with
    | true =>
      rw [isRest_eq_false (isAlpha_of_isBlank hb)]
      rfl
    | false =>
      cases hd : c.isDigit with
      | true =>
        rw [isRest_eq_false (isAlpha_of_isDigit hd)]
        rfl
      | false =>
        cases ha : c.isAlpha with
        | true => rfl
        | false =>
          rw [isRest_eq_false ha]
          rfl

theorem transition_rest (c : Char) :
    transition .rest (.ofChar c) =
      if Letter.isRest c then some (.rest, .addRest c)
      else if isGap c then some (.idle, .finishRest)
      else none := by
  by_cases hm : c ∈ marks
  · revert c
    exact forall_marks (by decide)
  · rw [ofChar_of_not_mark hm, isGap, isFill_of_not_mark hm, isSeparator_of_not_mark hm]
    cases hb : Text.isBlank c with
    | true =>
      rw [isRest_eq_false (isAlpha_of_isBlank hb)]
      rfl
    | false =>
      cases hd : c.isDigit with
      | true =>
        rw [isRest_eq_false (isAlpha_of_isDigit hd)]
        rfl
      | false =>
        cases ha : c.isAlpha with
        | true => rfl
        | false =>
          rw [isRest_eq_false ha]
          rfl

theorem transition_notes (c : Char) :
    transition .notes (.ofChar c) =
      if isNameChar c then some (.notes, .nameChar c)
      else if Text.isBlank c then some (.notes, .flushName)
      else if c = ')' then some (.chordClosed, .flushName)
      else (Glyph.ofChar? c).map fun g => (.notes, .pushGlyph g) := by
  by_cases hm : c ∈ marks
  · revert c
    exact forall_marks (by decide)
  · have hclose : c ≠ ')' := ne_of_not_mark hm (by decide)
    rw [ofChar_of_not_mark hm, if_neg hclose, isNameChar_of_not_mark hm, glyph_of_not_mark hm]
    cases hb : Text.isBlank c with
    | true =>
      rw [isAlpha_of_isBlank hb, isDigit_of_isBlank hb]
      rfl
    | false =>
      cases hd : c.isDigit with
      | true =>
        rw [isAlpha_of_isDigit hd]
        rfl
      | false => cases ha : c.isAlpha <;> rfl

theorem transition_chordClosed (c : Char) :
    transition .chordClosed (.ofChar c) =
      if Text.isBlank c then some (.chordClosed, .skip)
      else if c = '[' then some (.length, .skip)
      else none := by
  by_cases hm : c ∈ marks
  · revert c
    exact forall_marks (by decide)
  · have hopen : c ≠ '[' := ne_of_not_mark hm (by decide)
    rw [ofChar_of_not_mark hm, if_neg hopen]
    cases Text.isBlank c <;> cases c.isDigit <;> cases c.isAlpha <;> rfl

theorem transition_length (c : Char) :
    transition .length (.ofChar c) =
      if Letter.isLength c then some (.length, .addLength c)
      else if Text.isBlank c then some (.length, .skip)
      else if c = ']' then some (.closed, .finishUnit)
      else none := by
  by_cases hm : c ∈ marks
  · revert c
    exact forall_marks (by decide)
  · have hclose : c ≠ ']' := ne_of_not_mark hm (by decide)
    rw [ofChar_of_not_mark hm, if_neg hclose]
    cases hb : Text.isBlank c with
    | true =>
      rw [isLength_eq_false (isAlpha_of_isBlank hb)]
      rfl
    | false =>
      cases hd : c.isDigit with
      | true =>
        rw [isLength_eq_false (isAlpha_of_isDigit hd)]
        rfl
      | false =>
        cases ha : c.isAlpha with
        | true => rfl
        | false =>
          rw [isLength_eq_false ha]
          rfl

theorem transition_closed (c : Char) :
    transition .closed (.ofChar c) =
      if isSeparator c then some (.idle, .skip)
      else if isFill c then some (.closed, .skip)
      else none := by
  by_cases hm : c ∈ marks
  · revert c
    exact forall_marks (by decide)
  · rw [ofChar_of_not_mark hm, isFill_of_not_mark hm, isSeparator_of_not_mark hm]
    cases Text.isBlank c <;> cases c.isDigit <;> cases c.isAlpha <;> rfl

/-! ## The moves of the machine -/

/-- The machine may go from one mode to another on the character, with this action. -/
inductive Moves (c : Char) : Mode → Mode → Action → Prop where
  | openChord (h : c = '(') : Moves c .idle .notes .beginChord
  | beginRest (h : Letter.isRest c = true) : Moves c .idle .rest (.addRest c)
  | gap (h : isGap c = true) : Moves c .idle .idle .skip
  | growRest (h : Letter.isRest c = true) : Moves c .rest .rest (.addRest c)
  | endRest (h : isGap c = true) : Moves c .rest .idle .finishRest
  | growName (h : isNameChar c = true) : Moves c .notes .notes (.nameChar c)
  | endName (h : Text.isBlank c = true) : Moves c .notes .notes .flushName
  | pushGlyph {g : Glyph} (h : Glyph.ofChar? c = some g) : Moves c .notes .notes (.pushGlyph g)
  | closeChord (h : c = ')') : Moves c .notes .chordClosed .flushName
  | blankBehind (h : Text.isBlank c = true) : Moves c .chordClosed .chordClosed .skip
  | openLength (h : c = '[') : Moves c .chordClosed .length .skip
  | growLength (h : Letter.isLength c = true) : Moves c .length .length (.addLength c)
  | blankWithin (hletter : Letter.isLength c = false) (h : Text.isBlank c = true) :
      Moves c .length .length .skip
  | closeLength (h : c = ']') : Moves c .length .closed .finishUnit
  | separate (h : isSeparator c = true) : Moves c .closed .idle .skip
  | fill (h : isFill c = true) : Moves c .closed .closed .skip

/-- **The machine does nothing but its moves.** -/
theorem moves_of_transition {c : Char} {mode mode' : Mode} {action : Action}
    (h : transition mode (.ofChar c) = some (mode', action)) : Moves c mode mode' action := by
  cases mode with
  | idle =>
    rw [transition_idle] at h
    split_ifs at h with hopen hletter hgap <;> cases h
    · exact .openChord hopen
    · exact .beginRest hletter
    · exact .gap hgap
  | rest =>
    rw [transition_rest] at h
    split_ifs at h with hletter hgap <;> cases h
    · exact .growRest hletter
    · exact .endRest hgap
  | notes =>
    rw [transition_notes] at h
    split_ifs at h with hname hblank hclose
    · cases h
      exact .growName hname
    · cases h
      exact .endName hblank
    · cases h
      exact .closeChord hclose
    · obtain ⟨g, hglyph, hg⟩ := Option.map_eq_some_iff.1 h
      cases hg
      exact .pushGlyph hglyph
  | chordClosed =>
    rw [transition_chordClosed] at h
    split_ifs at h with hblank hopen <;> cases h
    · exact .blankBehind hblank
    · exact .openLength hopen
  | length =>
    rw [transition_length] at h
    split_ifs at h with hletter hblank hclose <;> cases h
    · exact .growLength hletter
    · exact .blankWithin (by simpa using hletter) hblank
    · exact .closeLength hclose
  | closed =>
    rw [transition_closed] at h
    split_ifs at h with hseparator hfill <;> cases h
    · exact .separate hseparator
    · exact .fill hfill

end RhythmTiles.Score
