import RhythmTiles.Proofs.Score.Completed
import RhythmTiles.Proofs.Score.Limit

/-!
# The same reading further on

A reader may stand where another stands, but for the events, the ticks and the characters behind it
(`Follows`). Both take the same steps from there: they give the same events, or the same fault so many
characters further on (`Agrees`). Only the total of ticks tells them apart, and it is checked nowhere but
at the end of a unit or a rest. So where the later reader alone overflows, the ticks behind it and those
of the phrases completed since exceed the limit (`OverrunsIn`, `OverrunsAtEnd`). Main theorems:
`Follows.run`, `Follows.finish`.
-/

namespace RhythmTiles.Score

/-! ## Outcomes that agree -/

section

variable {A B : Type} {rel : A → A → Prop} {rel' : B → B → Prop} {offset : Nat} {excess excess' : Prop}

/-- The second outcome is the first one, its place `offset` characters further on; or it is an overflow
that `excess` is the reason of. -/
inductive Agrees (offset : Nat) (rel : A → A → Prop) (excess : Prop) :
    Except ScoreFault A → Except ScoreFault A → Prop where
  | ok {a a' : A} (h : rel a a') : Agrees offset rel excess (.ok a) (.ok a')
  | misread (position : Nat) (cause : Misreading) :
      Agrees offset rel excess (.error (.misread position cause))
        (.error (.misread (position + offset) cause))
  | overflow (ticks ticks' : Nat) :
      Agrees offset rel excess (.error (.overflow ticks)) (.error (.overflow ticks'))
  | exceeded {outcome : Except ScoreFault A} {ticks : Nat} (h : excess) :
      Agrees offset rel excess outcome (.error (.overflow ticks))

theorem Agrees.imp {x x' : Except ScoreFault A} (h : Agrees offset rel excess x x')
    (himp : excess → excess') : Agrees offset rel excess' x x' := by
  cases h with
  | ok h => exact .ok h
  | misread position cause => exact .misread position cause
  | overflow ticks ticks' => exact .overflow ticks ticks'
  | exceeded h => exact .exceeded (himp h)

/-- Steps that agree can be taken one after the other. -/
theorem Agrees.bind {x x' : Except ScoreFault A} {next next' : A → Except ScoreFault B}
    (h : Agrees offset rel excess x x')
    (hnext : ∀ a a', x = .ok a → rel a a' → Agrees offset rel' excess (next a) (next' a')) :
    Agrees offset rel' excess (x >>= next) (x' >>= next') := by
  cases h with
  | ok h => exact hnext _ _ rfl h
  | misread position cause => exact .misread position cause
  | overflow ticks ticks' => exact .overflow ticks ticks'
  | exceeded h => exact .exceeded h

end

/-- A chord that stands further on is expanded as it was, or refused for the same cause. -/
theorem agrees_expand (entries : List Entry) (length ornamentTotal position offset : Nat)
    {excess : Prop} :
    Agrees offset Eq excess (Chord.expand entries length ornamentTotal position)
      (Chord.expand entries length ornamentTotal (position + offset)) := by
  cases h : Chord.expand entries length ornamentTotal position with
  | ok track =>
    rw [Chord.expand_position h (position + offset)]
    exact .ok rfl
  | error fault =>
    obtain ⟨cause, hcause, rfl⟩ := Chord.expand_eq_error.1 h
    rw [Chord.expand_eq_error.2 ⟨cause, hcause, rfl⟩]
    exact .misread position cause

namespace Scan

variable (meter : Meter) {before : Track} {offset position ticks : Nat} {s s' later : Scan}
  {mode : Mode} {action : Action} {c : Char} {cs : List Char}

/-- `later` stands where `s` stands, `offset` characters and the events `before` further on. -/
structure Follows (before : Track) (offset : Nat) (s later : Scan) : Prop where
  mode : later.mode = s.mode
  name : later.name = s.name
  nameStart : s.name ≠ [] → later.nameStart = s.nameStart + offset
  pending : later.pending = s.pending
  lengthUnits : later.lengthUnits = s.lengthUnits
  restUnits : later.restUnits = s.restUnits
  elapsed : later.elapsed = before.ticks + s.elapsed
  events : later.events.toList = before ++ s.events.toList

/-! ## The same step further on -/

theorem Follows.withMode (h : Follows before offset s later) (mode : Mode) :
    Follows before offset { s with mode } { later with mode } :=
  ⟨rfl, h.name, h.nameStart, h.pending, h.lengthUnits, h.restUnits, h.elapsed, h.events⟩

theorem Follows.flushName (h : Follows before offset s later) {excess : Prop} :
    Agrees offset (Follows before offset) excess s.flushName later.flushName := by
  unfold Scan.flushName
  rw [h.name]
  split
  · exact .ok h
  · rename_i hempty
    have hne : s.name ≠ [] := fun hnil => hempty (List.isEmpty_iff.2 hnil)
    rw [h.nameStart hne, h.pending]
    cases Pitch.ofName? s.name with
    | none => exact .misread s.nameStart _
    | some p =>
      exact .ok ⟨h.mode, rfl, fun hnil => absurd rfl hnil, rfl, h.lengthUnits, h.restUnits, h.elapsed,
        h.events⟩

/-- Only the total of ticks is different. -/
theorem Follows.advance (h : Follows before offset s later) (ticks : Nat) :
    Agrees offset (Follows before offset) (maxTicks < before.ticks + (s.elapsed + ticks))
      (s.advance ticks) (later.advance ticks) := by
  have htotal : later.elapsed + ticks = before.ticks + (s.elapsed + ticks) := by
    rw [h.elapsed, Nat.add_assoc]
  unfold Scan.advance checkTicks
  rw [htotal]
  by_cases hover : maxTicks < before.ticks + (s.elapsed + ticks)
  · rw [if_pos hover]
    exact .exceeded hover
  · have hfits : ¬maxTicks < s.elapsed + ticks := by omega
    rw [if_neg hover, if_neg hfits]
    exact .ok ⟨h.mode, h.name, h.nameStart, h.pending, h.lengthUnits, h.restUnits, rfl, h.events⟩

theorem agrees_checkTicks {excess : Prop} (offset ticks : Nat) :
    Agrees offset Eq excess (checkTicks ticks) (checkTicks ticks) := by
  unfold checkTicks
  split
  · exact .overflow ticks ticks
  · exact .ok rfl

theorem Follows.finishUnit (h : Follows before offset s later) (position : Nat) :
    Agrees offset (Follows before offset)
      (∃ ticks, s.reached? meter .finishUnit = some ticks ∧ maxTicks < before.ticks + ticks)
      (s.finishUnit meter position) (later.finishUnit meter (position + offset)) := by
  unfold Scan.finishUnit
  rw [h.lengthUnits]
  by_cases hzero : s.lengthUnits = 0
  · rw [if_pos hzero, if_pos hzero]
    exact .misread position .emptyLength
  · rw [if_neg hzero, if_neg hzero]
    refine (agrees_checkTicks offset _).bind fun length _ hlength heq => ?_
    subst heq
    obtain ⟨-, rfl⟩ := checkTicks_eq_ok.1 hlength
    refine ((h.advance _).imp fun hover => ⟨_, if_neg hzero, hover⟩).bind fun next next' _ hnext => ?_
    rw [hnext.pending]
    refine (agrees_expand _ _ _ _ offset).bind fun chord _ _ heq => ?_
    subst heq
    refine .ok ⟨hnext.mode, hnext.name, hnext.nameStart, rfl, rfl, hnext.restUnits, hnext.elapsed, ?_⟩
    simp [hnext.events]

theorem Follows.finishRest (h : Follows before offset s later) :
    Agrees offset (Follows before offset)
      (∃ ticks, s.reached? meter .finishRest = some ticks ∧ maxTicks < before.ticks + ticks)
      (s.finishRest meter) (later.finishRest meter) := by
  unfold Scan.finishRest
  rw [h.restUnits]
  refine (agrees_checkTicks offset _).bind fun ticks _ hticks heq => ?_
  subst heq
  obtain ⟨-, rfl⟩ := checkTicks_eq_ok.1 hticks
  refine ((h.advance _).imp fun hover => ⟨_, rfl, hover⟩).bind fun next next' _ hnext => ?_
  refine .ok ⟨hnext.mode, hnext.name, hnext.nameStart, hnext.pending, hnext.lengthUnits, rfl,
    hnext.elapsed, ?_⟩
  simp [hnext.events]

/-- Every action does the same further on, or ends a phrase behind too many ticks. -/
theorem Follows.apply (h : Follows before offset s later) (position : Nat) (action : Action) :
    Agrees offset (Follows before offset)
      (∃ ticks, s.reached? meter action = some ticks ∧ maxTicks < before.ticks + ticks)
      (s.apply meter position action) (later.apply meter (position + offset) action) := by
  cases action with
  | skip => exact .ok h
  | beginChord =>
    exact .ok ⟨h.mode, rfl, fun hne => absurd rfl hne, rfl, rfl, h.restUnits, h.elapsed, h.events⟩
  | nameChar c =>
    refine .ok ⟨h.mode, congrArg (· ++ [c]) h.name, fun _ => ?_, h.pending, h.lengthUnits, h.restUnits,
      h.elapsed, h.events⟩
    simp only [h.name]
    by_cases hnil : s.name = []
    · simp [hnil]
    · simp [hnil, h.nameStart hnil]
  | flushName => exact h.flushName
  | pushGlyph g =>
    refine h.flushName.bind fun next next' _ hnext => ?_
    exact .ok ⟨hnext.mode, hnext.name, hnext.nameStart, congrArg (· ++ [.glyph g]) hnext.pending,
      hnext.lengthUnits, hnext.restUnits, hnext.elapsed, hnext.events⟩
  | addLength c =>
    simp only [Scan.apply, h.lengthUnits]
    refine (agrees_checkTicks offset _).bind fun _ _ _ _ => ?_
    exact .ok ⟨h.mode, h.name, h.nameStart, h.pending, rfl, h.restUnits, h.elapsed, h.events⟩
  | finishUnit => exact h.finishUnit meter position
  | addRest c =>
    simp only [Scan.apply, h.restUnits]
    refine (agrees_checkTicks offset _).bind fun _ _ _ _ => ?_
    exact .ok ⟨h.mode, h.name, h.nameStart, h.pending, h.lengthUnits, rfl, h.elapsed, h.events⟩
  | finishRest => exact h.finishRest meter

/-- A character at a state ends a unit or a rest, and the ticks up to there are too many behind others. -/
def OverrunsAt (meter : Meter) (before : Track) (s : Scan) (c : Char) : Prop :=
  ∃ mode action ticks, transition s.mode (.ofChar c) = some (mode, action) ∧
    s.reached? meter action = some ticks ∧ maxTicks < before.ticks + ticks

theorem Follows.step (h : Follows before offset s later) (position : Nat) (c : Char) :
    Agrees offset (Follows before offset) (OverrunsAt meter before s c) (s.step meter position c)
      (later.step meter (position + offset) c) := by
  unfold Scan.step
  rw [h.mode]
  cases htransition : transition s.mode (.ofChar c) with
  | none => exact .misread position _
  | some out =>
    obtain ⟨mode, action⟩ := out
    have happly := (h.apply meter position action).imp fun ⟨ticks, hreached, hover⟩ =>
      (⟨mode, action, ticks, htransition, hreached, hover⟩ : OverrunsAt meter before s c)
    exact happly.bind fun next next' _ hnext => .ok (hnext.withMode mode)

/-- Somewhere in a text the ticks up to there are too many behind others. -/
def OverrunsIn (meter : Meter) (before : Track) (s : Scan) (position : Nat) (text : List Char) : Prop :=
  ∃ front c rest reader, text = front ++ c :: rest ∧ s.run meter position front = .ok reader ∧
    OverrunsAt meter before reader c

theorem Follows.run (h : Follows before offset s later) (position : Nat) (cs : List Char) :
    Agrees offset (Follows before offset) (OverrunsIn meter before s position cs)
      (s.run meter position cs) (later.run meter (position + offset) cs) := by
  induction cs generalizing s later position with
  | nil => exact .ok h
  | cons c cs ih =>
    have hstep := (h.step meter position c).imp fun hover =>
      (⟨[], c, cs, s, rfl, rfl, hover⟩ : OverrunsIn meter before s position (c :: cs))
    refine hstep.bind fun next next' hnext hfollows => ?_
    have hrun := ih hfollows (position + 1)
    rw [Nat.add_right_comm] at hrun
    refine hrun.imp ?_
    rintro ⟨front, d, rest, reader, rfl, hreader, hover⟩
    exact ⟨c :: front, d, rest, reader, rfl, Outcome.bind_eq_ok.2 ⟨next, hnext, hreader⟩, hover⟩

/-- At the end of a text the ticks of a last rest are too many behind others. -/
def OverrunsAtEnd (meter : Meter) (before : Track) (s : Scan) : Prop :=
  s.mode = .rest ∧ maxTicks < before.ticks + (s.elapsed + s.restUnits * meter.ticksPerUnit)

theorem Follows.finish (h : Follows before offset s later) (length : Nat) :
    Agrees offset (fun track track' => track' = before ++ track) (OverrunsAtEnd meter before s)
      (s.finish meter length) (later.finish meter (length + offset)) := by
  unfold Scan.finish
  rw [h.mode]
  cases hmode : s.mode with
  | idle | closed => exact .ok h.events
  | notes | chordClosed | length => exact .misread length .unfinishedUnit
  | rest =>
    have hrest := (h.finishRest meter).imp fun ⟨ticks, hreached, hover⟩ =>
      (⟨hmode, Option.some.inj hreached ▸ hover⟩ : OverrunsAtEnd meter before s)
    exact hrest.bind fun next next' _ hnext => .ok hnext.events

end Scan

end RhythmTiles.Score
