import RhythmTiles.Proofs.Tile.Length
import RhythmTiles.Proofs.Track.Trim

/-!
# Melodies

The plainest scores: units of one note, `(name)[letters]`, with commas between them. A melody is read
into its notes, one after the other (`read_melodyText`, `notesWithin_melodyTrack`), and cut into as many
pieces (`ofScore_melodyText`).
-/

namespace RhythmTiles

open Letter

/-- A unit of one note: its name and its letters. -/
structure NoteUnit where
  name : List Char
  letters : List Char
  deriving DecidableEq, Repr

namespace NoteUnit

/-- The unit as a score has it. -/
def text (u : NoteUnit) : List Char := '(' :: (u.name ++ ')' :: '[' :: (u.letters ++ [']']))

/-- The note that is named, mute where none is. -/
def pitch (u : NoteUnit) : Pitch := (Pitch.ofName? u.name).getD Pitch.mute

def units (u : NoteUnit) : Nat := soundTotal u.letters

/-- How long a unit lasts, where a letter unit has `t` ticks. -/
def ticks (t : Nat) (u : NoteUnit) : Nat := u.units * t

/-- How many tiles high a unit is. -/
def tiles (t : Nat) (u : NoteUnit) : Nat := u.ticks t / ticksPerQuarter

/-- A note that sounds for a positive number of whole tiles, where a letter unit has `t` ticks. -/
structure Plain (t : Nat) (u : NoteUnit) : Prop where
  named : u.pitch ≠ Pitch.mute
  sounding : ∀ c ∈ u.letters, (soundUnits? c).isSome = true
  pos : 0 < u.ticks t
  whole : ticksPerQuarter ∣ u.ticks t

end NoteUnit

/-- The score of some units. -/
def melodyText : List NoteUnit → List Char
  | [] => []
  | [u] => u.text
  | u :: us => u.text ++ ',' :: melodyText us

/-- What the units play. -/
def melodyTrack (t : Nat) (us : List NoteUnit) : Track :=
  us.flatMap fun u => [.on u.pitch, .delay (u.ticks t), .off u.pitch]

/-- The pitches of the units, with their lengths. -/
def melodyNotes (t : Nat) (us : List NoteUnit) : List (Pitch × Nat) :=
  us.map fun u => (u.pitch, u.ticks t)

/-- Notes that follow each other from a tick on. -/
def Span.inTurn (start : Nat) : List (Pitch × Nat) → List Span
  | [] => []
  | (pitch, ticks) :: notes => ⟨pitch, start, start + ticks⟩ :: inTurn (start + ticks) notes

/-! ## Names -/

theorem Pitch.isAlpha_of_step {c : Char} {n : Nat} (h : step? c = some n) : c.isAlpha = true := by
  by_cases hupper : c.isUpper = true
  · rw [Char.isAlpha, hupper, Bool.true_or]
  · have hlower : c.toLower = c := by
      unfold Char.toLower
      unfold Char.isUpper at hupper
      simp_all
    unfold step? at h
    rw [hlower] at h
    split at h <;> first | rfl | cases h

theorem Pitch.isNameChar_of_natural {name : List Char} {n : Nat} (h : natural? name = some n) :
    ∀ c ∈ name, Score.isNameChar c = true := by
  cases name with
  | nil => cases h
  | cons letter suffix =>
    obtain ⟨step, hstep, h⟩ := Option.bind_eq_some_iff.1 h
    obtain ⟨octave, hoctave, -⟩ := Option.bind_eq_some_iff.1 h
    refine List.forall_mem_cons.2 ⟨?_, ?_⟩
    · rw [Score.isNameChar, isAlpha_of_step hstep]
      rfl
    · unfold octave? raised? lowered? at hoctave
      split at hoctave <;> split at hoctave <;> first | exact List.all_eq_true.1 rfl | cases hoctave

theorem Pitch.isNameChar_of_ofName {name : List Char} {p : Pitch} (h : ofName? name = some p) :
    ∀ c ∈ name, Score.isNameChar c = true := by
  unfold ofName? at h
  split at h
  · rename_i hmute
    rcases hmute with rfl | rfl <;> exact List.all_eq_true.1 (by decide)
  · dsimp only at h
    split at h
    · obtain ⟨_, hpitch, -⟩ := Option.bind_eq_some_iff.1 h
      obtain ⟨natural, hnatural, -⟩ := Option.map_eq_some_iff.1 hpitch
      exact List.forall_mem_cons.2 ⟨by decide, isNameChar_of_natural hnatural⟩
    · obtain ⟨natural, hnatural, -⟩ := Option.bind_eq_some_iff.1 h
      exact isNameChar_of_natural hnatural

/-! ## Letters -/

theorem Letter.isRest_of_soundUnits {c : Char} (h : (soundUnits? c).isSome = true) :
    isRest c = false := by
  cases hrest : isRest c with
  | false => rfl
  | true =>
    rw [soundUnits?_of_isRest hrest] at h
    cases h

theorem Letter.isLength_of_soundUnits {c : Char} (h : (soundUnits? c).isSome = true) :
    isLength c = true := by
  rw [isLength_eq_isSome, h, Bool.true_or]

/-- Among sounding letters there are no rests to count. -/
theorem Letter.letterSum_of_sounding {cs : List Char} (h : ∀ c ∈ cs, (soundUnits? c).isSome = true) :
    Score.letterSum cs = soundTotal cs := by
  have hrests : cs.filterMap restUnits? = [] := by
    refine List.filterMap_eq_nil_iff.2 fun c hc => ?_
    have hrest := isRest_of_soundUnits (h c hc)
    simpa [isRest] using hrest
  rw [letterSum_eq, restTotal_eq, hrests, List.sum_nil, Nat.add_zero]

namespace NoteUnit

variable {t : Nat} {u : NoteUnit}

namespace Plain

variable (h : u.Plain t)
include h

theorem ofName : Pitch.ofName? u.name = some u.pitch := by
  have hnamed := h.named
  unfold pitch at hnamed ⊢
  cases hname : Pitch.ofName? u.name with
  | none =>
    rw [hname] at hnamed
    exact absurd rfl hnamed
  | some p => rfl

theorem isNameChar : ∀ c ∈ u.name, Score.isNameChar c = true :=
  Pitch.isNameChar_of_ofName h.ofName

theorem entries : Score.bodyEntries? u.name = some [.pitch u.pitch] := by
  have hne : u.name ≠ [] := by
    intro hnil
    have hname := h.ofName
    rw [hnil] at hname
    cases hname
  rw [Score.bodyEntries?_name hne h.isNameChar, Score.nameEntries?, h.ofName, Option.map_some,
    if_neg h.named]

theorem letterSum : Score.letterSum u.letters = u.units := letterSum_of_sounding h.sounding

theorem units_pos : 0 < u.units := Nat.pos_of_mul_pos_right h.pos

theorem ticks_eq : u.ticks t = ticksPerQuarter * u.tiles t := (Nat.mul_div_cancel' h.whole).symm

theorem tiles_pos : 0 < u.tiles t := Nat.div_pos (Nat.le_of_dvd h.pos h.whole) (by decide)

theorem exists_letter : ∃ c ∈ u.letters, Letter.isLength c = true := by
  by_contra hnone
  have hzero := Score.letterSum_eq_zero.2 hnone
  rw [h.letterSum] at hzero
  exact h.units_pos.ne' hzero

end Plain

end NoteUnit

/-! ## The track -/

/-- One note fills its length. -/
theorem Chord.expand_note (p : Pitch) (length ornamentTotal position : Nat) :
    expand [.pitch p] length ornamentTotal position = .ok [.on p, .delay length, .off p] := by
  have hgroups : groups [.pitch p] = [[.pitch p]] := rfl
  have hshares : Carry.shares length 1 = [length] := by
    have hsum : (Carry.shares length 1).sum = length := Carry.sum_shares one_pos
    obtain ⟨share, hshare⟩ := List.length_eq_one_iff.1 (Carry.length_shares length 1)
    rw [hshare, List.sum_singleton] at hsum
    rw [hshare, hsum]
  unfold expand
  simp only [hgroups, List.length_singleton, hshares]
  rfl

namespace Score

variable {meter : Meter} {us : List NoteUnit}

theorem plays_plain {u : NoteUnit} (h : u.Plain meter.ticksPerUnit) :
    Phrase.Plays meter (.unit u.name u.letters)
      [.on u.pitch, .delay (u.ticks meter.ticksPerUnit), .off u.pitch] := by
  refine ⟨[.pitch u.pitch], h.entries, fun position => ?_⟩
  rw [Chord.expand_note, Phrase.ticks, h.letterSum]
  rfl

theorem spells_unit {u : NoteUnit} {t : Nat} {rest text : List Char} {phrases : List Phrase}
    (h : u.Plain t) (hend : Ends isSeparator rest text) (hspells : Spells text phrases) :
    Spells (u.text ++ rest) (.unit u.name u.letters :: phrases) := by
  have hbody : ∀ c ∈ u.name, isBodyChar c = true :=
    fun c hc => isBodyChar_of_isNameChar (h.isNameChar c hc)
  have hcode : ∀ c ∈ u.letters, isCodeChar c = true := by
    intro c hc
    rw [isCodeChar, isLength_of_soundUnits (h.sounding c hc), Bool.true_or]
  have hblanks : ∀ c ∈ ([] : List Char), Text.isBlank c = true := List.forall_mem_nil _
  have hfill : ∀ c ∈ ([] : List Char), isFill c = true := List.forall_mem_nil _
  have hunit := Spells.unit hbody hblanks hcode h.exists_letter hfill hend hspells
  simpa [NoteUnit.text] using hunit

theorem spells_melodyText {t : Nat} (h : ∀ u ∈ us, u.Plain t) :
    Spells (melodyText us) (us.map fun u => .unit u.name u.letters) := by
  induction us with
  | nil => exact .done
  | cons u us ih =>
    obtain ⟨hu, hus⟩ := List.forall_mem_cons.1 h
    cases us with
    | nil =>
      have hunit := spells_unit hu (Or.inl ⟨rfl, rfl⟩) .done
      rwa [List.append_nil] at hunit
    | cons v us => exact spells_unit hu (Or.inr ⟨',', rfl, rfl⟩) (ih hus)

/-- **A melody within the tick limit is read into its notes**, one after the other. -/
theorem read_melodyText (h : ∀ u ∈ us, u.Plain meter.ticksPerUnit)
    (hlimit : (us.map (NoteUnit.ticks meter.ticksPerUnit)).sum ≤ maxTicks) :
    read meter (melodyText us) = .ok (melodyTrack meter.ticksPerUnit us) := by
  have hplays : List.Forall₂ (Phrase.Plays meter) (us.map fun u => .unit u.name u.letters)
      (us.map fun u => [.on u.pitch, .delay (u.ticks meter.ticksPerUnit), .off u.pitch]) := by
    rw [List.forall₂_map_left_iff, List.forall₂_map_right_iff, List.forall₂_same]
    exact fun u hu => plays_plain (h u hu)
  have hticks : (us.map fun u => Phrase.unit u.name u.letters).map (Phrase.ticks meter) =
      us.map (NoteUnit.ticks meter.ticksPerUnit) := by
    rw [List.map_map]
    refine List.map_congr_left fun u hu => ?_
    show letterSum u.letters * meter.ticksPerUnit = _
    rw [(h u hu).letterSum]
    rfl
  have hremaining : Remaining meter 0 (melodyText us) (melodyTrack meter.ticksPerUnit us) :=
    ⟨_, _, spells_melodyText h, hplays, by rwa [hticks, Nat.zero_add], rfl⟩
  refine Outcome.bind_eq_ok.2 ((Scan.run_eq_ok Scan.inv_initial _).2 ?_)
  exact ⟨_, rfl, hremaining⟩

end Score

/-! ## The notes -/

theorem ticks_melodyTrack (t : Nat) (us : List NoteUnit) :
    (melodyTrack t us).ticks = (us.map (NoteUnit.ticks t)).sum := by
  induction us with
  | nil => rfl
  | cons u us ih =>
    show (_ ++ melodyTrack t us).ticks = _
    rw [Track.ticks_append, ih]
    simp [Event.ticks]

theorem readNotes_melodyTrack (t now : Nat) (us : List NoteUnit) :
    Track.readNotes now [] (melodyTrack t us) = Span.inTurn now (melodyNotes t us) := by
  induction us generalizing now with
  | nil => rfl
  | cons u us ih =>
    show Track.readNotes now [] (_ :: _ :: _ :: melodyTrack t us) = _
    simp only [Track.readNotes, Track.closeNote, if_true]
    rw [ih]
    rfl

/-- All of a melody is heard. -/
theorem notesWithin_melodyTrack {t : Nat} {us : List NoteUnit} (h : ∀ u ∈ us, u.Plain t) :
    (melodyTrack t us).notesWithin (melodyTrack t us).ticks = Span.inTurn 0 (melodyNotes t us) := by
  have hsounds : ∀ now, ∀ span ∈ Span.inTurn now (melodyNotes t us), span.sounds = true := by
    intro now
    induction us generalizing now with
    | nil => simp [melodyNotes, Span.inTurn]
    | cons u us ih =>
      obtain ⟨hu, hus⟩ := List.forall_mem_cons.1 h
      have hpos := hu.pos
      refine List.forall_mem_cons.2 ⟨?_, ih hus _⟩
      simpa [Span.sounds] using hpos
  rw [Track.notesWithin_eq_cut, Track.map_cut_notes (Nat.le_refl _), Track.notes,
    readNotes_melodyTrack, List.filter_eq_self.2 (hsounds 0)]

/-! ## The pieces -/

namespace Piece

open NoteUnit

theorem plain_of_isNameChar {c : Char} (h : Score.isNameChar c = true) :
    isSeparator c = false ∧ c ≠ '<' ∧ c ≠ '>' := by
  refine ⟨?_, ?_, ?_⟩
  · by_contra hseparator
    simp only [isSeparator, Bool.not_eq_false, Bool.or_eq_true, beq_iff_eq] at hseparator
    rcases hseparator with rfl | rfl <;> cases h
  · rintro rfl
    cases h
  · rintro rfl
    cases h

theorem plain_of_mem_text {t : Nat} {u : NoteUnit} (h : u.Plain t) :
    ∀ c ∈ u.text, isSeparator c = false ∧ c ≠ '<' ∧ c ≠ '>' := by
  intro c hc
  simp only [text, List.mem_cons, List.mem_append, List.not_mem_nil, or_false] at hc
  rcases hc with rfl | hc | rfl | rfl | hc | rfl
  · decide
  · exact plain_of_isNameChar (h.isNameChar c hc)
  · decide
  · decide
  · have halpha := Score.isAlpha_of_isLength (isLength_of_soundUnits (h.sounding c hc))
    exact plain_of_isNameChar (by rw [Score.isNameChar, halpha]; rfl)
  · decide

theorem trim_text (u : NoteUnit) : Text.trim u.text = u.text := by
  have hopen : Text.isBlank '(' = false := by decide
  have hclose : Text.isBlank ']' = false := by decide
  simp [text, Text.trim, Text.trimRight, hopen, hclose]

theorem split_text {t : Nat} {u : NoteUnit} (h : u.Plain t) : split u.text = [u.text] := by
  have huncut : Uncut u.text := uncut_of_forall fun c hc => (plain_of_mem_text h c hc).1
  exact split_of_uncut huncut (trim_text u) (List.cons_ne_nil _ _)

theorem split_melodyText {t : Nat} {u : NoteUnit} {us : List NoteUnit}
    (h : ∀ v ∈ u :: us, v.Plain t) : split (melodyText (u :: us)) = (u :: us).map text := by
  induction us generalizing u with
  | nil => exact split_text (h u List.mem_cons_self)
  | cons v us ih =>
    obtain ⟨hu, hus⟩ := List.forall_mem_cons.1 h
    have hdepth : depth u.text = 0 := foldl_depthAfter (fun c hc => (plain_of_mem_text hu c hc).2) 0
    show split (u.text ++ ',' :: melodyText (v :: us)) = u.text :: (v :: us).map text
    rw [split_append hdepth rfl, split_text hu, ih hus, List.singleton_append]

/-- A unit is a single tile that lasts as long as its letters. -/
theorem ofText_text {t : Nat} {u : NoteUnit} (h : u.Plain t) : ofText u.text = ⟨u.units, .single⟩ := by
  have hname : soundTotal u.name = 0 := by
    rw [← soundTotal_letters, Score.letters_of_ofName h.ofName]
    rfl
  have htotal : soundTotal u.text = u.units := by
    have hsplit : u.text = ['('] ++ u.name ++ [')', '['] ++ u.letters ++ [']'] := by simp [text]
    rw [hsplit]
    simp only [soundTotal_append, hname]
    rw [show soundTotal ['('] = 0 by decide, show soundTotal [')', '['] = 0 by decide,
      show soundTotal [']'] = 0 by decide]
    simp [units]
  have hgroup : group? u.text = none := by
    unfold text group?
    split
    · rename_i heq
      obtain ⟨rfl, -⟩ := List.cons.inj heq
      rfl
    · rfl
  have hrest : isRestRun u.text = false := rfl
  unfold ofText
  simp only [trim_text, hgroup, hrest, htotal]
  rfl

/-- **A melody is cut into its units.** -/
theorem ofScore_melodyText {t : Nat} {us : List NoteUnit} (hne : us ≠ []) (h : ∀ u ∈ us, u.Plain t) :
    ofScore (melodyText us) = us.map fun u => ⟨u.units, .single⟩ := by
  obtain ⟨u, us, rfl⟩ := List.exists_cons_of_ne_nil hne
  rw [ofScore, split_melodyText h, List.map_map]
  exact List.map_congr_left fun v hv => ofText_text (h v hv)

end Piece

end RhythmTiles
