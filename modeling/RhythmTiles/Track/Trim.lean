import RhythmTiles.Level.Fault
import RhythmTiles.Track.Basic

/-!
# Bringing a track to a length

A track that is too long loses ticks from its end, one that is too short gains a delay. Notes that
no time is left for fall silent.
-/

namespace RhythmTiles.Track

/-- The delays of a track that let time pass. -/
def runs (track : Track) : List Nat := (track.map Event.ticks).filter (0 < ·)

/-- By how much the second row of delays is longer than the first: both are walked in step, and what
is left of one of them is the difference. -/
def surplus : List Nat → List Nat → Int
  | [], ts => (ts.foldl (· + ·) 0 : Nat)
  | rs, [] => -(rs.foldl (· + ·) 0 : Nat)
  | r :: rs, t :: ts =>
    if r = t then surplus rs ts
    else if r < t then surplus rs ((t - r) :: ts)
    else surplus ((r - t) :: rs) ts
termination_by rs ts => rs.length + ts.length

/-- By how many ticks a track is longer than a reference, as a signed 64-bit word. -/
def difference (reference track : Track) : Int :=
  (surplus (runs reference) (runs track)).bmod 0x10000000000000000

/-- Takes ticks out of the delays of a track, from the last one back. Returns the ticks that no
delay was left for. -/
def takeBack (amount : Nat) : Track → Track × Nat
  | [] => ([], amount)
  | event :: track =>
    -- the delays behind this event give first
    let (track, needed) := takeBack amount track
    match event with
    | .delay t => (.delay (t - min t needed) :: track, needed - min t needed)
    | event => (event :: track, needed)

/-- Silences the first end of a pitch, if no time passes before it. -/
def silenceEnd (pitch : Pitch) : Track → Option Track
  | [] => none
  | .off p :: track =>
    if p = pitch then some (.silent :: track) else (silenceEnd pitch track).map (.off p :: ·)
  | .delay t :: track => if t = 0 then (silenceEnd pitch track).map (.delay t :: ·) else none
  | event :: track => (silenceEnd pitch track).map (event :: ·)

theorem length_of_silenceEnd {pitch : Pitch} {track rest : Track}
    (h : silenceEnd pitch track = some rest) : rest.length = track.length := by
  fun_induction silenceEnd pitch track generalizing rest with
  | case1 => simp at h
  | case2 => cases h; rfl
  | case3 _ _ _ ih =>
    obtain ⟨r, hr, rfl⟩ := Option.map_eq_some_iff.1 h
    simp [ih hr]
  | case4 _ ih =>
    obtain ⟨r, hr, rfl⟩ := Option.map_eq_some_iff.1 h
    simp [ih hr]
  | case5 => simp at h
  | case6 _ _ _ _ ih =>
    obtain ⟨r, hr, rfl⟩ := Option.map_eq_some_iff.1 h
    simp [ih hr]

/-- Silences every note with no time between its start and the first end of its pitch behind it. -/
def silenceEmpty : Track → Track
  | [] => []
  | .on p :: track =>
    match _h : silenceEnd p track with
    | some rest => .silent :: silenceEmpty rest
    | none => .on p :: silenceEmpty track
  | event :: track => event :: silenceEmpty track
termination_by track => track.length
decreasing_by
  · simp [length_of_silenceEnd _h]
  · simp
  · simp

/-- A track after a trim, and what the trim lacked. -/
structure Trimmed where
  track : Track
  missing : Nat
  deriving DecidableEq, Repr

/-- Removes ticks from the end of a track. Where the track has too few, all its delays are used up
and its notes stay as they are. -/
def trim (track : Track) (amount : Nat) : Trimmed :=
  let (rest, missing) := takeBack amount track
  ⟨if missing = 0 then silenceEmpty rest else rest, missing⟩

/-- The track at the length of a reference. -/
def fit (reference track : Track) : Except Shortage Track :=
  let d := difference reference track
  if 0 < d then
    let trimmed := track.trim d.toNat
    if trimmed.missing = 0 then .ok trimmed.track else .error ⟨d.toNat, trimmed.missing⟩
  else if d < 0 then .ok (track ++ [.delay d.natAbs])
  else .ok track

end RhythmTiles.Track
