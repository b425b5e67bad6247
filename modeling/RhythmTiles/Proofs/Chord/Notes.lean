import RhythmTiles.Proofs.Chord.Closed
import RhythmTiles.Proofs.Chord.Faults

/-!
# When the notes of a chord sound

A chord without ornaments plays each of its notes once. Its groups divide the length evenly, so group
`i` of `n` lasts from `i` to `i + 1` times the length over `n`, both rounded down; a note ends with its
group. In an arpeggio the first `j` glyphs take `j` times an even slice, rounded down (`offset`), since
slices are handed out by a `Carry` too; what they take is never more than what remains, so that no
slice is cut short (`stagger_eq_staggerFreely`). Main theorem: `notes_expand_perm`.
-/

namespace RhythmTiles.Chord

open Track

/-! ## Slices -/

/-- What the slices of an arpeggio over a length are shares of. -/
def total (style : Arpeggio) (length : Nat) : Nat :=
  match style with
  | .roll => length
  | .spread | .quick => 3 * length

/-- What the slices of an arpeggio with so many glyphs are shares over. -/
def divisor (style : Arpeggio) (count : Nat) : Nat :=
  match style with
  | .roll => 10 * max 1 (count - 1)
  | .spread => 10 * count
  | .quick => 20 * count

/-- The ticks that the first `j` of `count` arpeggio glyphs take of a length. -/
def offset (style : Arpeggio) (length count j : Nat) : Nat :=
  j * total style length / divisor style count

theorem slice_eq (style : Arpeggio) (carry : Carry) (length count : Nat) :
    slice style carry length count = carry.divide (total style length) (divisor style count) := by
  cases style <;> rfl

theorem divisor_pos (style : Arpeggio) {count : Nat} (h : 0 < count) : 0 < divisor style count := by
  cases style <;> simp only [divisor] <;> omega

/-- All glyphs together take no more than the length. -/
theorem offset_le (style : Arpeggio) (length : Nat) {count j : Nat} (h : j ≤ count) :
    offset style length count j ≤ length := by
  have hshare : j * total style length ≤ divisor style count * length := by
    cases style with
    | roll => exact Nat.mul_le_mul_right length (by omega : j ≤ 10 * max 1 (count - 1))
    | spread =>
      calc j * (3 * length) = 3 * j * length := by rw [Nat.mul_left_comm, Nat.mul_assoc]
        _ ≤ 10 * count * length := Nat.mul_le_mul_right length (by omega)
    | quick =>
      calc j * (3 * length) = 3 * j * length := by rw [Nat.mul_left_comm, Nat.mul_assoc]
        _ ≤ 20 * count * length := Nat.mul_le_mul_right length (by omega)
  exact Nat.div_le_of_le_mul hshare

/-- The state of a stagger behind `j` of its glyphs. -/
structure Behind (style : Arpeggio) (length count j : Nat) (carry : Carry) (remaining : Nat) :
    Prop where
  carry : carry.remainder = j * total style length % divisor style count
  remaining : offset style length count j + remaining = length

theorem behind_start (style : Arpeggio) (length count : Nat) :
    Behind style length count 0 {} length := by
  constructor
  · rw [Nat.zero_mul, Nat.zero_mod]
  · rw [offset, Nat.zero_mul, Nat.zero_div, Nat.zero_add]

/-- A glyph takes what lies between its offset and the next, and that much remains. -/
theorem Behind.next {style : Arpeggio} {length count j : Nat} {carry : Carry} {remaining : Nat}
    (h : Behind style length count j carry remaining) (hj : j < count) :
    let share := slice style carry length count
    share.1 ≤ remaining ∧
      offset style length count j + share.1 = offset style length count (j + 1) ∧
      Behind style length count (j + 1) share.2 (remaining - share.1) := by
  obtain ⟨hshare, hleft⟩ := Carry.divide_after (divisor_pos style (by omega)) h.carry
  rw [← slice_eq] at hshare hleft
  have hle : offset style length count (j + 1) ≤ length := offset_le style length hj
  have hremaining := h.remaining
  unfold offset at hle hremaining
  refine ⟨by omega, hshare, hleft, ?_⟩
  rw [offset, ← hshare]
  omega

/-! ## Staggered notes -/

/-- Staggering in which a glyph takes its slice whatever remains. -/
def staggerFreely (style : Arpeggio) (length count : Nat) (carry : Carry) (remaining : Nat) :
    List Entry → Track
  | [] => [.delay remaining]
  | .pitch p :: group => .on p :: staggerFreely style length count carry remaining group
  | .glyph (.arpeggio _) :: group =>
    let share := slice style carry length count
    .delay share.1 :: staggerFreely style length count share.2 (remaining - share.1) group
  | .glyph _ :: group => staggerFreely style length count carry remaining group

/-- **No slice is cut short.** -/
theorem stagger_eq_staggerFreely {style : Arpeggio} {length count j : Nat} {carry : Carry}
    {remaining : Nat} {group : List Entry} (h : Behind style length count j carry remaining)
    (hcount : j + group.countP Entry.isArpeggio ≤ count) :
    stagger style length count carry remaining group =
      staggerFreely style length count carry remaining group := by
  induction group generalizing j carry remaining with
  | nil => rfl
  | cons entry group ih =>
    rcases entry with p | g
    · simp only [stagger, staggerFreely]
      rw [ih h hcount]
    · cases g with
      | arpeggio style' =>
        rw [List.countP_cons_of_pos rfl] at hcount
        obtain ⟨hle, -, hnext⟩ := h.next (by omega)
        simp only [stagger, staggerFreely, Nat.min_eq_left hle]
        rw [ih hnext (by omega)]
      | separator | divider | ornament => exact ih h hcount

/-- The notes of a group with their starts, where `start j` is the tick behind `j` arpeggio glyphs. -/
def startsFrom (start : Nat → Nat) (j : Nat) : List Entry → List (Pitch × Nat)
  | [] => []
  | .pitch p :: group => (p, start j) :: startsFrom start j group
  | .glyph (.arpeggio _) :: group => startsFrom start (j + 1) group
  | .glyph _ :: group => startsFrom start j group

theorem map_fst_startsFrom (start : Nat → Nat) (j : Nat) (group : List Entry) :
    (startsFrom start j group).map Prod.fst = pitches group := by
  fun_induction startsFrom start j group with
  | case1 => rfl
  | case2 j p group ih => exact congrArg (p :: ·) ih
  | case3 j style group ih => exact ih
  | case4 j g group hne ih => exact ih

/-- A note starts behind the glyphs before it. -/
theorem startsFrom_eq (start : Nat → Nat) (j : Nat) (group : List Entry) :
    startsFrom start j group = group.zipIdx.filterMap fun entry =>
      entry.1.pitch?.map fun p => (p, start (j + (group.take entry.2).countP Entry.isArpeggio)) := by
  induction group generalizing j with
  | nil => rfl
  | cons entry group ih =>
    rw [List.zipIdx_cons, List.zipIdx_succ, List.filterMap_cons, List.filterMap_map]
    rcases entry with p | g
    · simp only [startsFrom, ih]
      rfl
    · cases g with
      | arpeggio style =>
        simp only [startsFrom, ih]
        refine List.filterMap_congr fun entry _ => ?_
        simp only [Function.comp_apply, List.take_succ_cons, Entry.isArpeggio, List.countP_cons,
          if_true, Nat.add_assoc, Nat.add_comm 1]
      | separator | divider | ornament =>
        simp only [startsFrom, ih]
        rfl

/-- A stagger opens its notes one after the other. -/
theorem readNotes_stagger {style : Arpeggio} {length count j now : Nat} {carry : Carry}
    {remaining : Nat} {group : List Entry} (h : Behind style length count j carry remaining)
    (hcount : j + group.countP Entry.isArpeggio ≤ count) (opened : List (Pitch × Nat))
    (rest : Track) :
    readNotes (now + offset style length count j) opened
        (stagger style length count carry remaining group ++ rest) =
      readNotes (now + length)
        ((startsFrom (fun j => now + offset style length count j) j group).reverse ++ opened)
        rest := by
  induction group generalizing j carry remaining opened with
  | nil =>
    have hremaining := h.remaining
    simp only [stagger, startsFrom, List.cons_append, List.nil_append, List.reverse_nil, readNotes]
    rw [Nat.add_assoc, hremaining]
  | cons entry group ih =>
    rcases entry with p | g
    · simp only [stagger, startsFrom, List.cons_append, readNotes, ih h hcount, List.reverse_cons,
        List.append_assoc, List.nil_append]
    · cases g with
      | arpeggio style' =>
        rw [List.countP_cons_of_pos rfl] at hcount
        obtain ⟨hle, hoffset, hnext⟩ := h.next (by omega)
        simp only [stagger, startsFrom, List.cons_append, readNotes, Nat.min_eq_left hle]
        rw [Nat.add_assoc, hoffset]
        exact ih hnext (by omega) opened
      | separator | divider | ornament => exact ih h hcount opened

/-! ## The notes of a group -/

theorem startsOf_eq_nil {p : Pitch} {opened : List (Pitch × Nat)} :
    startsOf p opened = [] ↔ p ∉ opened.map Prod.fst := by
  induction opened with
  | nil => simp [startsOf]
  | cons note opened ih =>
    by_cases hp : note.1 = p
    · simp [startsOf, hp]
    · have hp' : ¬p = note.1 := fun e => hp e.symm
      simp [startsOf, hp, hp', ih]

/-- The ends of all open notes end them where they stand. -/
theorem readNotes_map_off {now : Nat} {ps : List Pitch} {opened : List (Pitch × Nat)}
    (h : ps.Perm (opened.map Prod.fst)) :
    (readNotes now opened (ps.map .off)).Perm
      (opened.map fun note => ⟨note.1, note.2, now⟩) := by
  induction ps generalizing opened with
  | nil =>
    have hnil : opened = [] := List.map_eq_nil_iff.1 h.nil_eq.symm
    rw [hnil]
    exact .nil
  | cons p ps ih =>
    rw [List.map_cons, readNotes]
    cases hclose : closeNote p opened with
    | none =>
      have hnone := startsOf_eq_nil.1 (closeNote_eq_none.1 hclose)
      exact absurd (h.mem_iff.1 List.mem_cons_self) hnone
    | some found =>
      obtain ⟨start, rest⟩ := found
      have hperm := closeNote_perm hclose
      have hrest : ps.Perm (rest.map Prod.fst) := (h.trans (hperm.map Prod.fst)).cons_inv
      have hopened := hperm.map fun note : Pitch × Nat => (⟨note.1, note.2, now⟩ : Span)
      exact ((ih hrest).cons _).trans hopened.symm

/-- What the first `j` glyphs of a group take of its share. -/
def Arrangement.offset : Arrangement → Nat → Nat → Nat → Nat
  | .arpeggio style => Chord.offset style
  | _ => fun _ _ _ => 0

/-- The notes of a group that lasts from one tick to another: each starts behind the glyphs before it,
and all end together. -/
def groupNotes (start stop : Nat) (group : List Entry) : List Span :=
  let offset := (arrangement group).offset (stop - start) (group.countP Entry.isArpeggio)
  group.zipIdx.filterMap fun entry => entry.1.pitch?.map fun p =>
    ⟨p, start + offset ((group.take entry.2).countP Entry.isArpeggio), stop⟩

theorem groupNotes_eq (start stop : Nat) (group : List Entry) :
    groupNotes start stop group =
      (startsFrom (fun j => start + (arrangement group).offset (stop - start)
        (group.countP Entry.isArpeggio) j) 0 group).map fun note => ⟨note.1, note.2, stop⟩ := by
  rw [startsFrom_eq, List.map_filterMap, groupNotes]
  refine List.filterMap_congr fun entry _ => ?_
  simp only [Option.map_map, Function.comp_def, Nat.zero_add]

theorem startsFrom_const (now j : Nat) (group : List Entry) :
    startsFrom (fun _ => now) j group = (pitches group).map fun p => (p, now) := by
  fun_induction startsFrom (fun _ => now) j group with
  | case1 => rfl
  | case2 j p group ih => exact congrArg ((p, now) :: ·) ih
  | case3 j style group ih => exact ih
  | case4 j g group hne ih => exact ih

theorem readNotes_map_on (now : Nat) (opened : List (Pitch × Nat)) (ps : List Pitch)
    (rest : Track) :
    readNotes now opened (ps.map .on ++ rest) =
      readNotes now ((ps.map fun p => (p, now)).reverse ++ opened) rest := by
  induction ps generalizing opened with
  | nil => rfl
  | cons p ps ih =>
    rw [List.map_cons, List.cons_append, readNotes, ih]
    simp

theorem readNotes_arpeggio (style : Arpeggio) (now length : Nat) (group : List Entry) :
    (readNotes now [] (arpeggio style group length)).Perm
      ((startsFrom (fun j => now + offset style length (group.countP Entry.isArpeggio) j) 0
        group).map fun note => ⟨note.1, note.2, now + length⟩) := by
  have hread : readNotes (now + offset style length _ 0) []
      (stagger style length (group.countP Entry.isArpeggio) {} length group ++
        (pitches group).map .off) = _ :=
    readNotes_stagger (behind_start style length _) (Nat.zero_add _).le [] _
  have hzero : offset style length (group.countP Entry.isArpeggio) 0 = 0 := by
    rw [offset, Nat.zero_mul, Nat.zero_div]
  rw [hzero, Nat.add_zero, List.append_nil] at hread
  rw [arpeggio, hread]
  have hpitches : (pitches group).Perm
      ((startsFrom (fun j => now + offset style length (group.countP Entry.isArpeggio) j) 0
        group).reverse.map Prod.fst) := by
    rw [List.map_reverse, map_fst_startsFrom]
    exact (List.reverse_perm _).symm
  refine (readNotes_map_off hpitches).trans ?_
  rw [List.map_reverse]
  exact List.reverse_perm _

theorem readNotes_together (now length : Nat) (group : List Entry) :
    (readNotes now [] (together group length)).Perm
      ((startsFrom (fun _ => now) 0 group).map fun note => ⟨note.1, note.2, now + length⟩) := by
  have hpitches : (pitches group).Perm
      (((pitches group).map fun p => (p, now)).reverse.map Prod.fst) := by
    rw [List.map_reverse, List.map_map]
    simp [Function.comp_def, List.reverse_perm _ |>.symm]
  rw [together, readNotes_map_on, List.append_nil, readNotes, startsFrom_const]
  refine (readNotes_map_off hpitches).trans ?_
  rw [List.map_reverse]
  exact List.reverse_perm _

/-- **A group without ornament plays its notes.** -/
theorem readNotes_expandGroup {ornamentTotal position : Nat} {group : List Entry} {length : Nat}
    {track : Track} (h : expandGroup ornamentTotal position group length = .ok track)
    (hplain : .glyph .ornament ∉ group) (now : Nat) :
    (readNotes now [] track).Perm (groupNotes now (now + length) group) := by
  rw [groupNotes_eq, Nat.add_sub_cancel_left]
  unfold expandGroup at h
  cases harrangement : arrangement group with
  | together =>
    rw [harrangement] at h
    cases h
    exact readNotes_together now length group
  | arpeggio style =>
    rw [harrangement] at h
    cases h
    exact readNotes_arpeggio style now length group
  | ornament =>
    exact absurd (ornament_mem_of_arrangement harrangement) hplain

/-! ## The notes of a chord -/

theorem length_groups (entries : List Entry) :
    (groups entries).length = entries.countP Entry.isDivider + 1 := by
  unfold groups
  induction entries with
  | nil => rfl
  | cons entry entries ih =>
    rw [List.splitOnP_cons_eq_if_modifyHead]
    by_cases hdivider : entry.isDivider
    · rw [if_pos hdivider, List.length_cons, ih, List.countP_cons_of_pos hdivider]
    · rw [if_neg hdivider, List.length_modifyHead, ih, List.countP_cons_of_neg hdivider]

/-- Groups that fill the ticks between the values of `start` play their notes there. -/
theorem readNotes_expandGroups {start : Nat → Nat} (hmono : ∀ i, start i ≤ start (i + 1))
    {ornamentTotal position : Nat} {gs : List (List Entry)} {i : Nat} {track : Track}
    (h : expandGroups ornamentTotal position
      (gs.zip ((List.range' i gs.length).map fun k => start (k + 1) - start k)) = .ok track)
    (hplain : ∀ g ∈ gs, .glyph .ornament ∉ g) :
    (readNotes (start i) [] track).Perm
      ((gs.zipIdx i).flatMap fun g => groupNotes (start g.2) (start (g.2 + 1)) g.1) := by
  induction gs generalizing i track with
  | nil =>
    cases h
    exact .nil
  | cons group gs ih =>
    obtain ⟨hgroup, hgs⟩ := List.forall_mem_cons.1 hplain
    rw [List.length_cons, List.range'_succ, List.map_cons, List.zip_cons_cons] at h
    obtain ⟨head, hhead, h⟩ := Outcome.bind_eq_ok.1 h
    obtain ⟨rest, hrest, h⟩ := Outcome.bind_eq_ok.1 h
    cases h
    have hstop : start i + (start (i + 1) - start i) = start (i + 1) :=
      Nat.add_sub_cancel' (hmono i)
    have hnotes := readNotes_expandGroup hhead hgroup (start i)
    rw [hstop] at hnotes
    rw [readNotes_append ((closed_expandGroup hhead).openAfter? _), ticks_expandGroup hhead, hstop,
      List.zipIdx_cons, List.flatMap_cons]
    exact hnotes.append (ih hrest hgs)

/-- **The notes of a chord without ornaments.** Group `i` of `n` lasts from `i` to `i + 1` times the
length over `n`; its notes start behind the slices of the glyphs before them and end with it. No slice
is cut short. -/
theorem notes_expand_perm {entries : List Entry} {length ornamentTotal position : Nat}
    {track : Track} (h : expand entries length ornamentTotal position = .ok track)
    (hplain : .glyph .ornament ∉ entries) :
    let n := entries.countP Entry.isDivider + 1
    (groups entries).length = n ∧
      track.notes.Perm ((groups entries).zipIdx.flatMap fun g =>
        groupNotes (g.2 * length / n) ((g.2 + 1) * length / n) g.1) ∧
      ∀ g ∈ groups entries, ∀ style share, arpeggio style g share =
        staggerFreely style share (g.countP Entry.isArpeggio) {} share g ++ (pitches g).map .off := by
  intro n
  have hlength : (groups entries).length = n := length_groups entries
  obtain ⟨_, -, h⟩ := Outcome.bind_eq_ok.1 h
  simp only [Carry.shares_eq, hlength] at h
  refine ⟨hlength, ?_, fun g _ style share => ?_⟩
  · have hmono : ∀ i, i * length / n ≤ (i + 1) * length / n := fun i =>
      Nat.div_le_div_right (Nat.mul_le_mul_right length (Nat.le_succ i))
    have hnotes : (readNotes (0 * length / n) [] track).Perm _ :=
      readNotes_expandGroups hmono (by rw [hlength]; exact h) fun g hg hmem =>
        hplain (mem_of_mem_groups hg hmem)
    rw [Nat.zero_mul, Nat.zero_div] at hnotes
    exact hnotes
  · rw [arpeggio, stagger_eq_staggerFreely (behind_start style share _) (Nat.zero_add _).le]

/-- A hundred ticks over three groups: the first two notes of the last are one pitch, an arpeggio glyph
between them. -/
theorem notes_expand_perm_divided :
    let c : Entry := .pitch 60
    let entries : List Entry := [c, .glyph .divider, .pitch 62, .glyph .divider,
      c, .glyph (.arpeggio .spread), c, .glyph (.arpeggio .spread), .pitch 64]
    let spans : List Span := [⟨60, 0, 33⟩, ⟨62, 33, 66⟩, ⟨60, 66, 100⟩, ⟨60, 71, 100⟩, ⟨64, 76, 100⟩]
    ∃ track, expand entries 100 1 0 = .ok track ∧ .glyph .ornament ∉ entries ∧
      track.notes.Perm spans := by
  intro c entries spans
  have hplain : .glyph .ornament ∉ entries := by decide
  obtain ⟨track, htrack⟩ : ∃ track, expand entries 100 1 0 = .ok track := ⟨_, rfl⟩
  have hspans : ((groups entries).zipIdx.flatMap fun g =>
      groupNotes (g.2 * 100 / 3) ((g.2 + 1) * 100 / 3) g.1) = spans := by decide +kernel
  obtain ⟨-, hnotes, -⟩ := notes_expand_perm htrack hplain
  exact ⟨track, htrack, hplain, hnotes.trans (.of_eq hspans)⟩

end RhythmTiles.Chord
