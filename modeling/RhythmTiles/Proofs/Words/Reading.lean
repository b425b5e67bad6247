import RhythmTiles.Proofs.Score.Invariant
import RhythmTiles.Proofs.Words.Chord

/-!
# Reading a score on words

The reader of scores with its letter units, ticks and running total in 64-bit words. What it holds
between two characters is small (`Scan.Fits`): letter units times ticks keep the tick limit, since they
are tested as they grow; one letter more adds at most 256 units; and the entries are no more than the
characters. So it reads every text below 2^32 characters as the reader on natural numbers does, with
its faults, and no operation exceeds a word. Main theorem: `read_eq_and_bounds`.
-/

namespace RhythmTiles.Words

open Score (Mode Action transition)

/-! ## Definitions -/

structure Meter where
  ticksPerUnit : UInt64
  ornamentTotal : UInt64
  deriving DecidableEq, Repr

def Meter.toNat (meter : Meter) : Score.Meter :=
  ⟨meter.ticksPerUnit.toNat, meter.ornamentTotal.toNat⟩

def checkTicks (ticks : UInt64) : Except Stop UInt64 :=
  if .ofNat maxTicks < ticks then .error (.fault (.overflow ticks.toNat)) else .ok ticks

structure Scan where
  mode : Mode := .idle
  name : List Char := []
  nameStart : Nat := 0
  pending : List Entry := []
  lengthUnits : UInt64 := 0
  restUnits : UInt64 := 0
  elapsed : UInt64 := 0
  events : Array Event := #[]

namespace Scan

def flushName (s : Scan) : Except Stop Scan :=
  if s.name.isEmpty then .ok s
  else
    match Pitch.ofName? s.name with
    | none => .error (.fault (.misread s.nameStart (.unknownNote (String.ofList s.name))))
    | some p =>
      .ok { s with
        name := []
        pending := if p = Pitch.mute then s.pending else s.pending ++ [.pitch p] }

def advance (policy : Overflow) (s : Scan) (ticks : UInt64) : Except Stop Scan := do
  let sum ← add policy s.elapsed ticks
  let elapsed ← checkTicks sum
  pure { s with elapsed }

def finishUnit (policy : Overflow) (meter : Meter) (s : Scan) (position : Nat) :
    Except Stop Scan := do
  if s.lengthUnits = 0 then .error (.fault (.misread position .emptyLength))
  let product ← mul policy s.lengthUnits meter.ticksPerUnit
  let length ← checkTicks product
  let s ← s.advance policy length
  let expanded ← expand policy s.pending length meter.ornamentTotal position
  pure { s with events := s.events ++ expanded.toArray, pending := [], lengthUnits := 0 }

def finishRest (policy : Overflow) (meter : Meter) (s : Scan) : Except Stop Scan := do
  let product ← mul policy s.restUnits meter.ticksPerUnit
  let ticks ← checkTicks product
  let s ← s.advance policy ticks
  pure { s with events := s.events.push (.delay ticks.toNat), restUnits := 0 }

def apply (policy : Overflow) (meter : Meter) (s : Scan) (position : Nat) :
    Action → Except Stop Scan
  | .skip => .ok s
  | .beginChord => .ok { s with pending := [], name := [], lengthUnits := 0 }
  | .nameChar c =>
    .ok { s with
      name := s.name ++ [c]
      nameStart := if s.name.isEmpty then position else s.nameStart }
  | .flushName => s.flushName
  | .pushGlyph g => do
    let s ← s.flushName
    pure { s with pending := s.pending ++ [.glyph g] }
  | .addLength c => do
    let lengthUnits ← add policy s.lengthUnits (.ofNat ((Letter.units? c).getD 0))
    let product ← mul policy lengthUnits meter.ticksPerUnit
    let _ ← checkTicks product
    pure { s with lengthUnits }
  | .finishUnit => s.finishUnit policy meter position
  | .addRest c => do
    let restUnits ← add policy s.restUnits (.ofNat ((Letter.restUnits? c).getD 0))
    let product ← mul policy restUnits meter.ticksPerUnit
    let _ ← checkTicks product
    pure { s with restUnits }
  | .finishRest => s.finishRest policy meter

def step (policy : Overflow) (meter : Meter) (s : Scan) (position : Nat) (c : Char) :
    Except Stop Scan :=
  match transition s.mode (.ofChar c) with
  | none => .error (.fault (.misread position (.unexpectedChar c)))
  | some (mode, action) => do
    let s ← s.apply policy meter position action
    pure { s with mode }

def run (policy : Overflow) (meter : Meter) (s : Scan) (position : Nat) :
    List Char → Except Stop Scan
  | [] => .ok s
  | c :: cs => do
    let s ← s.step policy meter position c
    s.run policy meter (position + 1) cs

def finish (policy : Overflow) (meter : Meter) (s : Scan) (length : Nat) : Except Stop Track :=
  match s.mode with
  | .idle | .closed => .ok s.events.toList
  | .rest => do
    let s ← s.finishRest policy meter
    pure s.events.toList
  | _ => .error (.fault (.misread length .unfinishedUnit))

end Scan

def read (policy : Overflow) (meter : Meter) (score : List Char) : Except Stop Track := do
  let s ← Scan.run policy meter {} 0 score
  s.finish policy meter score.length

/-! ## What a reading holds -/

/-- A letter is at most 256 units. -/
theorem restUnits?_le (c : Char) : (Letter.restUnits? c).getD 0 ≤ 256 := by
  unfold Letter.restUnits?
  split <;> decide

theorem units?_le (c : Char) : (Letter.units? c).getD 0 ≤ 256 := by
  have hrest := restUnits?_le c
  unfold Letter.units? Letter.soundUnits?
  split <;> simp [hrest]

namespace Scan

variable {policy : Overflow} {meter : Meter} {s s' : Score.Scan} {position : Nat} {c : Char}

/-- What a reader holds, with so many ticks to a letter unit, behind so many characters. -/
structure Fits (ticksPerUnit position : Nat) (s : Score.Scan) : Prop where
  length : s.lengthUnits * ticksPerUnit ≤ maxTicks
  rest : s.restUnits * ticksPerUnit ≤ maxTicks
  elapsed : s.elapsed ≤ maxTicks
  /-- A glyph ends a name of at least one character before it. -/
  pending : s.pending.length + s.name.length ≤ position

theorem fits_initial (ticksPerUnit : Nat) : Fits ticksPerUnit 0 {} := by
  constructor <;> simp

theorem Fits.later {t : Nat} (hs : Fits t position s) : Fits t (position + 1) s :=
  ⟨hs.length, hs.rest, hs.elapsed, hs.pending.trans (Nat.le_succ _)⟩

theorem flushName_spec (h : s.flushName = .ok s') :
    ∃ pending, s' = { s with name := [], pending } ∧
      pending.length ≤ s.pending.length + s.name.length := by
  unfold Score.Scan.flushName at h
  by_cases hempty : s.name.isEmpty
  · rw [if_pos hempty] at h
    cases h
    have hnil : s.name = [] := List.isEmpty_iff.1 hempty
    exact ⟨s.pending, by rw [← hnil], Nat.le_add_right _ _⟩
  · rw [if_neg hempty] at h
    have hpos : 0 < s.name.length := List.length_pos_iff.2 fun e => hempty (List.isEmpty_iff.2 e)
    cases hname : Pitch.ofName? s.name with
    | none => simp [hname] at h
    | some p =>
      rw [hname] at h
      cases h
      refine ⟨_, rfl, ?_⟩
      by_cases hmute : p = Pitch.mute
      · rw [if_pos hmute]
        omega
      · rw [if_neg hmute, List.length_append, List.length_singleton]
        omega

theorem Fits.apply {action : Action} (hs : Fits meter.toNat.ticksPerUnit position s)
    (h : s.apply meter.toNat position action = .ok s') :
    Fits meter.toNat.ticksPerUnit (position + 1) s' := by
  -- letters and ticks are checked as they grow; only names and glyphs grow with the text
  cases action with
  | skip =>
    cases h
    exact hs.later
  | beginChord =>
    cases h
    exact ⟨by simp, hs.rest, hs.elapsed, by simp⟩
  | nameChar c =>
    cases h
    refine ⟨hs.length, hs.rest, hs.elapsed, ?_⟩
    rw [List.length_append, List.length_singleton, ← Nat.add_assoc]
    exact Nat.succ_le_succ hs.pending
  | flushName =>
    obtain ⟨pending, rfl, hle⟩ := flushName_spec h
    exact ⟨hs.length, hs.rest, hs.elapsed, (hle.trans hs.pending).trans (Nat.le_succ _)⟩
  | pushGlyph g =>
    obtain ⟨_, hflush, h⟩ := Outcome.bind_eq_ok.1 h
    obtain ⟨pending, rfl, hle⟩ := flushName_spec hflush
    cases h
    refine ⟨hs.length, hs.rest, hs.elapsed, ?_⟩
    rw [List.length_append, List.length_singleton]
    exact Nat.succ_le_succ (hle.trans hs.pending)
  | addLength c =>
    obtain ⟨hle, rfl⟩ := Score.Scan.addLength_eq_ok.1 h
    exact ⟨hle, hs.rest, hs.elapsed, hs.later.pending⟩
  | finishUnit =>
    obtain ⟨-, hle, chord, -, rfl⟩ := Score.Scan.finishUnit_eq_ok.1 h
    refine ⟨by simp, hs.rest, hle, ?_⟩
    have hpending := hs.later.pending
    simp only [List.length_nil]
    omega
  | addRest c =>
    obtain ⟨hle, rfl⟩ := Score.Scan.addRest_eq_ok.1 h
    exact ⟨hs.length, hle, hs.elapsed, hs.later.pending⟩
  | finishRest =>
    obtain ⟨hle, rfl⟩ := Score.Scan.finishRest_eq_ok.1 h
    exact ⟨hs.length, by simp, hle, hs.later.pending⟩

theorem Fits.step (hs : Fits meter.toNat.ticksPerUnit position s)
    (h : s.step meter.toNat position c = .ok s') :
    Fits meter.toNat.ticksPerUnit (position + 1) s' := by
  obtain ⟨mode, action, next, -, happly, rfl⟩ := Score.Scan.step_eq_ok.1 h
  have hnext := hs.apply happly
  exact ⟨hnext.length, hnext.rest, hnext.elapsed, hnext.pending⟩

/-! ## The operations on words -/

def ofScan (s : Score.Scan) : Scan :=
  ⟨s.mode, s.name, s.nameStart, s.pending, .ofNat s.lengthUnits, .ofNat s.restUnits,
    .ofNat s.elapsed, s.events⟩

theorem checkTicks_ofNat {ticks : Nat} (h : ticks < 2 ^ 64) :
    checkTicks (.ofNat ticks) = faulting UInt64.ofNat (RhythmTiles.checkTicks ticks) := by
  unfold checkTicks RhythmTiles.checkTicks
  simp only [UInt64.ofNat_lt_iff_lt (by decide : maxTicks < 2 ^ 64) h, UInt64.toNat_ofNat_of_lt' h]
  by_cases hmax : maxTicks < ticks
  · rw [if_pos hmax, if_pos hmax]
    rfl
  · rw [if_neg hmax, if_neg hmax]
    rfl

theorem flushName_ofScan : (ofScan s).flushName = faulting ofScan s.flushName := by
  unfold flushName Score.Scan.flushName
  have hname : (ofScan s).name = s.name := rfl
  rw [hname]
  by_cases hempty : s.name.isEmpty
  · rw [if_pos hempty, if_pos hempty]
    rfl
  · rw [if_neg hempty, if_neg hempty]
    cases Pitch.ofName? s.name <;> rfl

theorem checkProduct_ofNat {units : Nat} {t : UInt64} {B : Type} {next : UInt64 → Except Stop B}
    (h : units * t.toNat < 2 ^ 64) :
    (mul policy (.ofNat units) t >>= fun product => checkTicks product >>= next) =
      faulting UInt64.ofNat (RhythmTiles.checkTicks (units * t.toNat)) >>= next := by
  have hmul : mul policy (.ofNat units) (.ofNat t.toNat) = .ok (.ofNat (units * t.toNat)) :=
    mul_ofNat h
  rw [UInt64.ofNat_toNat] at hmul
  rw [hmul, ok_bind, checkTicks_ofNat h]

theorem advance_ofScan {ticks : Nat} (h : s.elapsed + ticks < 2 ^ 64) :
    (ofScan s).advance policy (.ofNat ticks) = faulting ofScan (s.advance ticks) := by
  have helapsed : (ofScan s).elapsed = .ofNat s.elapsed := rfl
  rw [advance, Score.Scan.advance, helapsed, add_ofNat h, ok_bind, checkTicks_ofNat h]
  exact bind_faulting fun elapsed _ => rfl

theorem Fits.lengthUnits_le {t : Nat} (hs : Fits t position s) (ht : 1 ≤ t) :
    s.lengthUnits ≤ maxTicks :=
  (Nat.le_mul_of_pos_right _ ht).trans hs.length

theorem Fits.restUnits_le {t : Nat} (hs : Fits t position s) (ht : 1 ≤ t) :
    s.restUnits ≤ maxTicks :=
  (Nat.le_mul_of_pos_right _ ht).trans hs.rest

theorem finishUnit_ofScan (hs : Fits meter.toNat.ticksPerUnit position s)
    (ht : 1 ≤ meter.ticksPerUnit.toNat) (hposition : position < 2 ^ 32) :
    (ofScan s).finishUnit policy meter position =
      faulting ofScan (s.finishUnit meter.toNat position) := by
  have hunits := hs.lengthUnits_le ht
  have hsum : s.elapsed + s.lengthUnits * meter.ticksPerUnit.toNat ≤ maxTicks + maxTicks :=
    Nat.add_le_add hs.elapsed hs.length
  unfold maxTicks at hunits hsum
  have hword : (ofScan s).lengthUnits = 0 ↔ s.lengthUnits = 0 := ofNat_eq_zero (by omega)
  unfold finishUnit Score.Scan.finishUnit
  by_cases hzero : s.lengthUnits = 0
  · simp only [hword, hzero, if_true]
    rfl
  · simp only [hword, hzero, if_false]
    refine (checkProduct_ofNat (Nat.lt_of_le_of_lt hs.length (by decide))).trans
      (bind_faulting fun length hlength => ?_)
    obtain ⟨hle, rfl⟩ := Score.checkTicks_eq_ok.1 hlength
    rw [advance_ofScan (Nat.lt_of_le_of_lt hsum (by decide))]
    refine bind_faulting fun next hadvance => ?_
    obtain ⟨-, rfl⟩ := Score.Scan.advance_eq_ok.1 hadvance
    have hpending := hs.pending
    have hchord : expand policy s.pending (.ofNat _) (.ofNat meter.ornamentTotal.toNat) position = _ :=
      expand_ofNat meter.ornamentTotal.toNat_lt hle (by omega)
    rw [UInt64.ofNat_toNat] at hchord
    exact (congrArg (· >>= _) hchord).trans (bind_faulting fun chord _ => rfl)

theorem finishRest_ofScan (hs : Fits meter.toNat.ticksPerUnit position s) :
    (ofScan s).finishRest policy meter = faulting ofScan (s.finishRest meter.toNat) := by
  have hsum : s.elapsed + s.restUnits * meter.ticksPerUnit.toNat ≤ maxTicks + maxTicks :=
    Nat.add_le_add hs.elapsed hs.rest
  have hproduct : s.restUnits * meter.ticksPerUnit.toNat < 2 ^ 64 :=
    Nat.lt_of_le_of_lt hs.rest (by decide)
  unfold maxTicks at hsum
  unfold finishRest Score.Scan.finishRest
  refine (checkProduct_ofNat hproduct).trans (bind_faulting fun ticks hticks => ?_)
  obtain ⟨-, rfl⟩ := Score.checkTicks_eq_ok.1 hticks
  rw [advance_ofScan (Nat.lt_of_le_of_lt hsum (by decide))]
  refine bind_faulting fun next _ => ?_
  rw [UInt64.toNat_ofNat_of_lt' hproduct]
  rfl

/-- One letter more keeps units and their product in a word. -/
theorem lt_of_fits {units more t : Nat} (h : units * t ≤ maxTicks) (ht : 1 ≤ t) (ht' : t ≤ 240)
    (hmore : more ≤ 256) : units + more < 2 ^ 64 ∧ (units + more) * t ≤ maxTicks + 256 * 240 := by
  have hunits : units ≤ units * t := Nat.le_mul_of_pos_right _ ht
  have hletter : more * t ≤ 256 * 240 := Nat.mul_le_mul hmore ht'
  rw [Nat.add_mul]
  unfold maxTicks at h ⊢
  omega

theorem apply_ofScan {action : Action} (hs : Fits meter.toNat.ticksPerUnit position s)
    (ht : 1 ≤ meter.ticksPerUnit.toNat) (ht' : meter.ticksPerUnit.toNat ≤ 240)
    (hposition : position < 2 ^ 32) :
    (ofScan s).apply policy meter position action =
      faulting ofScan (s.apply meter.toNat position action) := by
  cases action with
  | skip | beginChord | nameChar c => rfl
  | flushName => exact flushName_ofScan
  | pushGlyph g =>
    rw [apply, flushName_ofScan]
    exact bind_faulting fun next _ => rfl
  | addLength c =>
    obtain ⟨hsum, hproduct⟩ := lt_of_fits hs.length ht ht' (units?_le c)
    have hunits : (ofScan s).lengthUnits = .ofNat s.lengthUnits := rfl
    rw [apply, hunits, add_ofNat hsum, ok_bind]
    refine (checkProduct_ofNat ?_).trans (bind_faulting fun ticks _ => rfl)
    unfold maxTicks at hproduct
    exact Nat.lt_of_le_of_lt hproduct (by decide)
  | finishUnit => exact finishUnit_ofScan hs ht hposition
  | addRest c =>
    obtain ⟨hsum, hproduct⟩ := lt_of_fits hs.rest ht ht' (restUnits?_le c)
    have hunits : (ofScan s).restUnits = .ofNat s.restUnits := rfl
    rw [apply, hunits, add_ofNat hsum, ok_bind]
    refine (checkProduct_ofNat ?_).trans (bind_faulting fun ticks _ => rfl)
    unfold maxTicks at hproduct
    exact Nat.lt_of_le_of_lt hproduct (by decide)
  | finishRest => exact finishRest_ofScan hs

/-- **A character is read on words as it is on natural numbers.** -/
theorem step_ofScan (hs : Fits meter.toNat.ticksPerUnit position s)
    (ht : 1 ≤ meter.ticksPerUnit.toNat) (ht' : meter.ticksPerUnit.toNat ≤ 240)
    (hposition : position < 2 ^ 32) :
    (ofScan s).step policy meter position c = faulting ofScan (s.step meter.toNat position c) := by
  have hmode : (ofScan s).mode = s.mode := rfl
  unfold step Score.Scan.step
  rw [hmode]
  cases transition s.mode (.ofChar c) with
  | none => rfl
  | some out =>
    obtain ⟨mode, action⟩ := out
    exact (congrArg (· >>= _) (apply_ofScan hs ht ht' hposition)).trans (bind_faulting fun next _ => rfl)

theorem run_ofScan {cs : List Char} (hs : Fits meter.toNat.ticksPerUnit position s)
    (ht : 1 ≤ meter.ticksPerUnit.toNat) (ht' : meter.ticksPerUnit.toNat ≤ 240)
    (hlength : position + cs.length < 2 ^ 32) :
    (ofScan s).run policy meter position cs = faulting ofScan (s.run meter.toNat position cs) := by
  induction cs generalizing s position with
  | nil => rfl
  | cons c cs ih =>
    rw [List.length_cons] at hlength
    rw [run, Score.Scan.run, step_ofScan hs ht ht' (by omega)]
    exact bind_faulting fun next hstep => ih (hs.step hstep) (by omega)

theorem Fits.run {cs : List Char} (hs : Fits meter.toNat.ticksPerUnit position s)
    (h : s.run meter.toNat position cs = .ok s') :
    Fits meter.toNat.ticksPerUnit (position + cs.length) s' := by
  induction cs generalizing s position with
  | nil =>
    cases h
    exact hs
  | cons c cs ih =>
    obtain ⟨next, hstep, h⟩ := Outcome.bind_eq_ok.1 h
    rw [List.length_cons, Nat.add_comm cs.length, ← Nat.add_assoc]
    exact ih (hs.step hstep) h

theorem finish_ofScan {length : Nat} (hs : Fits meter.toNat.ticksPerUnit position s) :
    (ofScan s).finish policy meter length = faulting id (s.finish meter.toNat length) := by
  have hmode : (ofScan s).mode = s.mode := rfl
  unfold finish Score.Scan.finish
  rw [hmode]
  cases s.mode with
  | idle | closed | notes | chordClosed | length => rfl
  | rest =>
    exact (congrArg (· >>= _) (finishRest_ofScan hs)).trans (bind_faulting fun next _ => rfl)

end Scan

/-! ## A whole reading -/

variable {policy : Overflow} {meter : Meter}

/-- **Nothing in a reading exceeds a word.** A text below 2^32 characters is read on words as it is on
natural numbers, with its faults, whether an overflow wraps around or stops the reading. Behind every
part of the text that is read, letter units times ticks and the running total keep the limit, and one
letter more exceeds it by no more than 256 units. -/
theorem read_eq_and_bounds {text : List Char} (ht : 1 ≤ meter.ticksPerUnit.toNat)
    (ht' : meter.ticksPerUnit.toNat ≤ 240) (hlength : text.length < 2 ^ 32) :
    read policy meter text = (Score.read meter.toNat text).mapError .fault ∧
      ∀ before, before <+: text → ∀ s, Scan.run policy meter {} 0 before = .ok s →
        s.lengthUnits.toNat * meter.ticksPerUnit.toNat ≤ maxTicks ∧
        s.restUnits.toNat * meter.ticksPerUnit.toNat ≤ maxTicks ∧
        s.elapsed.toNat ≤ maxTicks ∧
        ∀ c,
          (s.lengthUnits.toNat + (Letter.units? c).getD 0) * meter.ticksPerUnit.toNat ≤
            maxTicks + 256 * 240 ∧
          (s.restUnits.toNat + (Letter.restUnits? c).getD 0) * meter.ticksPerUnit.toNat ≤
            maxTicks + 256 * 240 := by
  have hfits := Scan.fits_initial meter.toNat.ticksPerUnit
  constructor
  · have hrun : Scan.run policy meter {} 0 text = _ :=
      Scan.run_ofScan hfits ht ht' (by omega)
    rw [← faulting_id]
    exact (congrArg (· >>= _) hrun).trans
      (bind_faulting fun s hs => Scan.finish_ofScan (hfits.run hs))
  · intro before hbefore s hs
    have hle := hbefore.length_le
    have hrun : Scan.run policy meter {} 0 before = _ :=
      Scan.run_ofScan hfits ht ht' (by omega)
    -- the state on words is one on natural numbers that fits
    obtain ⟨n, hn, rfl⟩ : ∃ n, Score.Scan.run meter.toNat {} 0 before = .ok n ∧
        s = Scan.ofScan n := by
      cases hnat : Score.Scan.run meter.toNat {} 0 before with
      | error fault =>
        rw [hnat] at hrun
        cases hs.symm.trans hrun
      | ok n =>
        rw [hnat] at hrun
        cases hs.symm.trans hrun
        exact ⟨n, rfl, rfl⟩
    have hn := hfits.run hn
    have hunits : (Scan.ofScan n).lengthUnits.toNat = n.lengthUnits :=
      UInt64.toNat_ofNat_of_lt' (Nat.lt_of_le_of_lt (hn.lengthUnits_le ht) (by decide))
    have hrests : (Scan.ofScan n).restUnits.toNat = n.restUnits :=
      UInt64.toNat_ofNat_of_lt' (Nat.lt_of_le_of_lt (hn.restUnits_le ht) (by decide))
    have helapsed : (Scan.ofScan n).elapsed.toNat = n.elapsed :=
      UInt64.toNat_ofNat_of_lt' (Nat.lt_of_le_of_lt hn.elapsed (by decide))
    rw [hunits, hrests, helapsed]
    refine ⟨hn.length, hn.rest, hn.elapsed, fun c => ⟨?_, ?_⟩⟩
    · exact (Scan.lt_of_fits hn.length ht ht' (units?_le c)).2
    · exact (Scan.lt_of_fits hn.rest ht ht' (restUnits?_le c)).2

/-- A rest behind an ornament that takes its steps from the largest total. -/
theorem read_eq_and_bounds_ornament :
    let meter : Meter := ⟨240, 0xFFFFFFFFFFFFFFFF⟩
    let text := "(c^d)[H],Y".toList
    1 ≤ meter.ticksPerUnit.toNat ∧ meter.ticksPerUnit.toNat ≤ 240 ∧ text.length < 2 ^ 32 ∧
      read .trap meter text = .ok [.on 60, .delay 61440, .off 60, .delay 240] := by
  intro meter text
  have hnat : Score.read meter.toNat text = .ok [.on 60, .delay 61440, .off 60, .delay 240] := by
    decide +kernel
  have hread : read .trap meter text = _ :=
    (read_eq_and_bounds (by decide) (by decide) (by decide)).1
  rw [hnat] at hread
  exact ⟨by decide, by decide, by decide, hread⟩

end RhythmTiles.Words
