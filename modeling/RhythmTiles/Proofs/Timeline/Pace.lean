import RhythmTiles.Grid.Indicator
import RhythmTiles.Proofs.Binary64.Accuracy

/-!
# Two ways to a time

Rows pass at so many tiles a second, one after the other; notes start at ticks that a tempo map turns
into seconds. Where both come from one exact pace, both ways end up close to the exact time: the times
between rows (`Stretch.within_rows`) and the times of notes (`Stretch.within_addSegments`). So a note
starts no earlier than the row before its own (`Stretch.edge_le_noteTime`), before its own row is over
(`Stretch.not_edge_le_noteTime`), and in a millisecond of its own (`Stretch.toMillis_ne`).
-/

namespace RhythmTiles

open Binary64

/-- Rows of a section, each with one note. -/
structure Stretch where
  /-- The tiles of each row. -/
  tiles : List Nat
  /-- Tiles per second, as the rows go by. -/
  speed : Float
  /-- Quarter notes a minute, as the notes go by. -/
  tempo : Float
  /-- The exact seconds of a tile. -/
  pace : Rat

namespace Stretch

/-- Both ways are true to the pace, and no tile passes in less than a hundredth of a second, up to
rounding. -/
structure Accurate (s : Stretch) : Prop where
  speed : Within 2 s.speed (1 / s.pace)
  tempo : Within 3 s.tempo (60 / s.pace)
  slow : 99 / 10 ^ 4 ≤ s.pace
  tiles_pos : ∀ k ∈ s.tiles, 0 < k
  tiles_ne : s.tiles ≠ []
  short : s.tiles.sum < 2 ^ 20

/-- All rows, each with its stretch. -/
def rows (ss : List Stretch) : List (Nat × Stretch) := ss.flatMap fun s => s.tiles.map fun k => (k, s)

def seconds (ss : List Stretch) : List Rat := (rows ss).map fun row => row.1 * row.2.pace

def rowSeconds (ss : List Stretch) : List Float :=
  (rows ss).map fun row => Float.ofNat row.1 / row.2.speed

/-- The ticks and the tempos of the changes where stretches start. -/
def changes (start : Nat) : List Stretch → List (Nat × Float)
  | [] => []
  | s :: ss => (start, s.tempo) :: changes (start + ticksPerQuarter * s.tiles.sum) ss

/-- The tick at which row `k` starts. -/
def tickOf (start : Nat) (ss : List Stretch) (k : Nat) : Nat :=
  start + ticksPerQuarter * (((rows ss).map Prod.fst).take k).sum

theorem value?_zero : value? (Float.ofNat 0) = some 0 := by
  have hvalue : value? (Float.ofNat 0) = some ((0 : Nat) : Rat) := value?_ofNat (by norm_num)
  rwa [Nat.cast_zero] at hvalue

theorem within_zero (m : Nat) : Within m (Float.ofNat 0) 0 :=
  (within_of_value value?_zero).mono (Nat.zero_le m) le_rfl

theorem mem_rows {ss : List Stretch} {row : Nat × Stretch} (h : row ∈ rows ss) :
    row.2 ∈ ss ∧ row.1 ∈ row.2.tiles := by
  obtain ⟨s, hs, hrow⟩ := List.mem_flatMap.1 h
  obtain ⟨k, hk, rfl⟩ := List.mem_map.1 hrow
  exact ⟨hs, hk⟩

namespace Accurate

variable {s : Stretch} (h : s.Accurate)
include h

theorem pace_pos : 0 < s.pace := lt_of_lt_of_le (by norm_num) h.slow

theorem le_mul {k : Nat} (hk : 0 < k) : 99 / 10 ^ 4 ≤ k * s.pace := by
  have hone : (1 : Rat) ≤ k := by exact_mod_cast hk
  exact h.slow.trans (le_mul_of_one_le_left h.pace_pos.le hone)

theorem ordinary {k : Nat} (hk : 0 < k) (hlimit : k * s.pace ≤ 2 ^ 50) : Ordinary (k * s.pace) :=
  ⟨le_trans (by norm_num) (h.le_mul hk), hlimit⟩

/-- Rows go by at a speed that can be used. -/
theorem usable : s.speed.isFinite = true ∧ Float.ofNat 0 < s.speed := by
  obtain ⟨r, hr, hle⟩ := h.speed
  have hrate : 0 < 1 / s.pace := one_div_pos.2 h.pace_pos
  have hlow := (abs_le.1 hle).1
  have hsmall : ((2 : Nat) : Rat) * 2⁻¹ ^ 52 * (1 / s.pace) ≤ 1 / 2 * (1 / s.pace) :=
    mul_le_mul_of_nonneg_right (by norm_num) hrate.le
  exact ⟨isFinite_of_value hr, (lt_iff value?_zero hr).2 (by linarith)⟩

theorem within_row {k : Nat} (hk : k ∈ s.tiles) (hlimit : k * s.pace ≤ 2 ^ 50) :
    Within 4 (Float.ofNat k / s.speed) (k * s.pace) := by
  have hle : k ≤ s.tiles.sum := List.single_le_sum (fun _ _ => Nat.zero_le _) k hk
  have hshort := h.short
  have hpace := h.pace_pos
  have heq : (k : Rat) / (1 / s.pace) = k * s.pace := by rw [div_div_eq_mul_div, div_one]
  have hvalue : value? (Float.ofNat k) = some (k : Rat) := value?_ofNat (by omega)
  have hordinary := h.ordinary (h.tiles_pos k hk) hlimit
  rw [← heq] at hordinary ⊢
  exact Within.exact_div hvalue (Nat.cast_nonneg k) h.speed (by positivity) hordinary (by norm_num)

theorem within_segment {k : Nat} (hpos : 0 < k) (hk : k ≤ s.tiles.sum) (hlimit : k * s.pace ≤ 2 ^ 50) :
    Within 5 (TempoChange.segmentSeconds (ticksPerQuarter * k) ticksPerQuarter s.tempo)
      (k * s.pace) := by
  have hshort := h.short
  have hpace := h.pace_pos
  have hticks : value? (Float.ofNat (960 * k)) = some ((960 * k : Nat) : Rat) := value?_ofNat (by omega)
  have hquarter : value? (Float.ofNat 960) = some ((960 : Nat) : Rat) := value?_ofNat (by norm_num)
  have hminute : value? (Float.ofNat 60) = some ((60 : Nat) : Rat) := value?_ofNat (by norm_num)
  -- quarter notes and minutes are whole numbers, so only the last division rounds
  have hquarters : value? (Float.ofNat (960 * k) / Float.ofNat 960) = some (k : Rat) := by
    have hround := roundsTo_div hticks hquarter (by norm_num)
    rw [Nat.cast_mul, mul_div_cancel_left₀ _ (by norm_num)] at hround
    exact hround.value_natCast (by omega)
  have hminutes : value? (Float.ofNat (960 * k) / Float.ofNat 960 * Float.ofNat 60) =
      some ((k * 60 : Nat) : Rat) := by
    have hround := roundsTo_mul hquarters hminute
    rw [← Nat.cast_mul] at hround
    exact hround.value_natCast (by omega)
  have heq : ((k * 60 : Nat) : Rat) / (60 / s.pace) = k * s.pace := by
    push_cast
    field_simp
  have hordinary := h.ordinary hpos hlimit
  rw [← heq] at hordinary ⊢
  exact Within.exact_div hminutes (Nat.cast_nonneg _) h.tempo (by positivity) hordinary (by norm_num)

end Accurate

section

variable {ss : List Stretch} (h : ∀ s ∈ ss, s.Accurate)
include h

/-- No row takes less than a hundredth of a second, up to rounding. -/
theorem le_of_mem_seconds : ∀ a ∈ seconds ss, 99 / 10 ^ 4 ≤ a := by
  intro a ha
  obtain ⟨row, hrow, rfl⟩ := List.mem_map.1 ha
  obtain ⟨hs, hk⟩ := mem_rows hrow
  exact (h _ hs).le_mul ((h _ hs).tiles_pos _ hk)

theorem seconds_nonneg : ∀ a ∈ seconds ss, 0 ≤ a :=
  fun a ha => le_trans (by norm_num) (le_of_mem_seconds h a ha)

theorem sum_take_le (k : Nat) : ((seconds ss).take k).sum ≤ (seconds ss).sum :=
  (List.take_sublist k _).sum_le_sum (seconds_nonneg h)

/-- **The times between rows are true**, up to one part a row. -/
theorem within_rows (hlimit : (seconds ss).sum ≤ 2 ^ 50) (hlength : (rows ss).length ≤ 2 ^ 39) {k : Nat}
    (hk : k ≤ (rows ss).length) :
    Within (4 + k) (((rowSeconds ss).take k).foldl (· + ·) (Float.ofNat 0))
      ((seconds ss).take k).sum := by
  have hrows : List.Forall₂ (Within 4) (rowSeconds ss) (seconds ss) := by
    rw [rowSeconds, seconds, List.forall₂_map_left_iff, List.forall₂_map_right_iff, List.forall₂_same]
    intro row hrow
    obtain ⟨hs, hk⟩ := mem_rows hrow
    refine (h _ hs).within_row hk (le_trans ?_ hlimit)
    exact List.single_le_sum (seconds_nonneg h) _ (List.mem_map.2 ⟨row, hrow, rfl⟩)
  have hcount : ((rowSeconds ss).take k).length = k := by
    rw [List.length_take, rowSeconds, List.length_map, Nat.min_eq_left hk]
  have hle := sum_take_le h k
  have hsum := (within_zero 4).foldl_add le_rfl (List.forall₂_take k hrows) le_rfl
    (fun a ha => le_trans (by norm_num) (le_of_mem_seconds h a (List.mem_of_mem_take ha)))
    (by linarith) (by omega)
  rwa [hcount, zero_add] at hsum

end

/-! ## Notes -/

theorem rows_cons (s : Stretch) (ss : List Stretch) :
    rows (s :: ss) = s.tiles.map (fun k => (k, s)) ++ rows ss := rfl

theorem seconds_cons (s : Stretch) (ss : List Stretch) :
    seconds (s :: ss) = s.tiles.map (fun k : Nat => (k : Rat) * s.pace) ++ seconds ss := by
  rw [seconds, rows_cons, List.map_append, List.map_map]
  rfl

theorem tickOf_zero (start : Nat) (ss : List Stretch) : tickOf start ss 0 = start := rfl

theorem start_le_tickOf (start : Nat) (ss : List Stretch) (k : Nat) : start ≤ tickOf start ss k :=
  Nat.le_add_right _ _

theorem tickOf_cons_of_le (start : Nat) (s : Stretch) (ss : List Stretch) {k : Nat}
    (hk : k ≤ s.tiles.length) :
    tickOf start (s :: ss) k = start + ticksPerQuarter * (s.tiles.take k).sum := by
  rw [tickOf, rows_cons, List.map_append, List.map_map]
  have hfst : s.tiles.map (Prod.fst ∘ fun k => (k, s)) = s.tiles := List.map_id' _
  rw [hfst, List.take_append_of_le_length hk]

theorem tickOf_cons_add (start : Nat) (s : Stretch) (ss : List Stretch) (k : Nat) :
    tickOf start (s :: ss) (s.tiles.length + k) =
      tickOf (start + ticksPerQuarter * s.tiles.sum) ss k := by
  rw [tickOf, rows_cons, List.map_append, List.map_map]
  have hfst : s.tiles.map (Prod.fst ∘ fun k => (k, s)) = s.tiles := List.map_id' _
  rw [hfst, List.take_length_add_append, List.sum_append, Nat.mul_add, ← Nat.add_assoc]
  rfl

theorem sum_seconds_cons (s : Stretch) (ss : List Stretch) :
    (seconds (s :: ss)).sum = (s.tiles.sum : Nat) * s.pace + (seconds ss).sum := by
  rw [seconds_cons, List.sum_append, List.sum_map_mul_right, Nat.cast_list_sum]

theorem sum_take_seconds_cons_of_le (s : Stretch) (ss : List Stretch) {k : Nat}
    (hk : k ≤ s.tiles.length) :
    ((seconds (s :: ss)).take k).sum = ((s.tiles.take k).sum : Nat) * s.pace := by
  rw [seconds_cons, List.take_append_of_le_length (by simpa using hk), ← List.map_take,
    List.sum_map_mul_right, Nat.cast_list_sum]

theorem sum_take_seconds_cons_add (s : Stretch) (ss : List Stretch) (k : Nat) :
    ((seconds (s :: ss)).take (s.tiles.length + k)).sum =
      (s.tiles.sum : Nat) * s.pace + ((seconds ss).take k).sum := by
  have hlength : s.tiles.length = (s.tiles.map fun k : Nat => (k : Rat) * s.pace).length := by simp
  rw [seconds_cons, hlength, List.take_length_add_append, List.sum_append, List.sum_map_mul_right,
    Nat.cast_list_sum]

section

variable {ss : List Stretch} {tempos : List (TempoChange Float)} {start : Nat}
  (htempos : tempos.map (fun change => (change.ticks, change.bpm)) = changes start ss)
include htempos

/-- Where the changes are still to come, no segment is added. -/
theorem addSegments_of_le {ticks : Nat} (hticks : ticks ≤ start) (x : Float) :
    TempoChange.addSegments ticksPerQuarter ticks x tempos = x := by
  cases tempos with
  | nil => rfl
  | cons change tempos =>
    cases ss with
    | nil => cases htempos
    | cons s ss =>
      obtain ⟨hhead, -⟩ := List.cons.inj htempos
      obtain ⟨rfl, -⟩ := Prod.mk.inj hhead
      rw [TempoChange.addSegments, if_pos hticks]

/-- A segment stops at the next change, if it gets there. -/
theorem addSegments_cons {change : TempoChange Float} {ticks : Nat} (hbegun : change.ticks < ticks)
    (hticks : ticks ≤ start ∨ ss ≠ []) (x : Float) :
    TempoChange.addSegments ticksPerQuarter ticks x (change :: tempos) =
      TempoChange.addSegments ticksPerQuarter ticks
        (x + TempoChange.segmentSeconds (min start ticks - change.ticks) ticksPerQuarter change.bpm)
        tempos := by
  have hstop : (tempos.head?.map fun next => min next.ticks ticks).getD ticks = min start ticks := by
    cases tempos with
    | nil =>
      cases ss with
      | nil => simpa using hticks
      | cons s ss => cases htempos
    | cons next tempos =>
      cases ss with
      | nil => cases htempos
      | cons s ss =>
        obtain ⟨hhead, -⟩ := List.cons.inj htempos
        obtain ⟨rfl, -⟩ := Prod.mk.inj hhead
        rfl
  rw [TempoChange.addSegments, if_neg (Nat.not_le_of_lt hbegun), hstop]

end

theorem Accurate.within_add {s : Stretch} (h : s.Accurate) {n k : Nat} {x : Float} {a : Rat}
    (hx : Within n x a) (hn : 5 ≤ n) (hn' : n ≤ 2 ^ 40) (ha : 0 ≤ a) (hk : 0 < k)
    (hle : k ≤ s.tiles.sum) (hlimit : a + k * s.pace ≤ 2 ^ 50) :
    Within (n + 1)
      (x + TempoChange.segmentSeconds (ticksPerQuarter * k) ticksPerQuarter s.tempo)
      (a + k * s.pace) := by
  have hterm := h.le_mul hk
  have hsegment := h.within_segment hk hle (by linarith)
  exact hx.add (hsegment.mono hn (by linarith)) ⟨by linarith, hlimit⟩ hn'

section

variable {s : Stretch} {ss : List Stretch} {change : TempoChange Float}
  {tempos : List (TempoChange Float)} {k n : Nat} {x : Float} {a : Rat} (hs : s.Accurate)
  (hbpm : change.bpm = s.tempo)
  (htempos : tempos.map (fun change => (change.ticks, change.bpm)) =
    changes (change.ticks + ticksPerQuarter * s.tiles.sum) ss)
include hs hbpm htempos

/-- The time of a note in the first stretch. -/
theorem within_addSegments_first (hpos : 0 < k) (hk : k ≤ s.tiles.length) (hx : Within n x a)
    (hn : 5 ≤ n) (hn' : n ≤ 2 ^ 40) (ha : 0 ≤ a) (hlimit : a + (s.tiles.sum : Nat) * s.pace ≤ 2 ^ 50) :
    Within (n + 1)
      (TempoChange.addSegments ticksPerQuarter (tickOf change.ticks (s :: ss) k) x (change :: tempos))
      (a + ((seconds (s :: ss)).take k).sum) := by
  have hsum : 0 < (s.tiles.take k).sum := by
    refine List.sum_pos _ (fun t ht => hs.tiles_pos t (List.mem_of_mem_take ht)) ?_
    simpa [List.take_eq_nil_iff, hpos.ne'] using hs.tiles_ne
  have hle : (s.tiles.take k).sum ≤ s.tiles.sum :=
    (List.take_sublist k _).sum_le_sum fun _ _ => Nat.zero_le _
  have hnext : change.ticks + ticksPerQuarter * (s.tiles.take k).sum ≤
      change.ticks + ticksPerQuarter * s.tiles.sum :=
    Nat.add_le_add_left (Nat.mul_le_mul_left _ hle) _
  have hbegun : 0 < ticksPerQuarter * (s.tiles.take k).sum := Nat.mul_pos (by decide) hsum
  have hpart : ((s.tiles.take k).sum : Nat) * s.pace ≤ (s.tiles.sum : Nat) * s.pace :=
    mul_le_mul_of_nonneg_right (by exact_mod_cast hle) hs.pace_pos.le
  rw [tickOf_cons_of_le _ s ss hk,
    addSegments_cons htempos (Nat.lt_add_of_pos_right hbegun) (Or.inl hnext),
    Nat.min_eq_right hnext, Nat.add_sub_cancel_left, addSegments_of_le htempos hnext, hbpm,
    sum_take_seconds_cons_of_le s ss hk]
  exact hs.within_add hx hn hn' ha hsum hle (by linarith only [hpart, hlimit])

/-- Behind the first stretch a note is timed by the others. -/
theorem addSegments_behind (hk : ss ≠ []) (j : Nat) (x : Float) :
    TempoChange.addSegments ticksPerQuarter (tickOf change.ticks (s :: ss) (s.tiles.length + j)) x
        (change :: tempos) =
      TempoChange.addSegments ticksPerQuarter
        (tickOf (change.ticks + ticksPerQuarter * s.tiles.sum) ss j)
        (x + TempoChange.segmentSeconds (ticksPerQuarter * s.tiles.sum) ticksPerQuarter s.tempo)
        tempos := by
  have hsum : 0 < s.tiles.sum := List.sum_pos _ hs.tiles_pos hs.tiles_ne
  have hnext : 0 < ticksPerQuarter * s.tiles.sum := Nat.mul_pos (by decide) hsum
  have hstart := start_le_tickOf (change.ticks + ticksPerQuarter * s.tiles.sum) ss j
  rw [tickOf_cons_add, addSegments_cons htempos (by omega) (Or.inr hk), Nat.min_eq_left hstart,
    Nat.add_sub_cancel_left, hbpm]

end

/-- **The times of notes are true**, up to one part a tempo change. -/
theorem within_addSegments {ss : List Stretch} (h : ∀ s ∈ ss, s.Accurate)
    {tempos : List (TempoChange Float)} {start : Nat}
    (htempos : tempos.map (fun change => (change.ticks, change.bpm)) = changes start ss) {k n : Nat}
    (hk : k ≤ (rows ss).length) {x : Float} {a : Rat} (hx : Within n x a) (hn : 5 ≤ n) (ha : 0 ≤ a)
    (hlimit : a + (seconds ss).sum ≤ 2 ^ 50) (hcount : n + ss.length ≤ 2 ^ 40) :
    Within (n + ss.length)
      (TempoChange.addSegments ticksPerQuarter (tickOf start ss k) x tempos)
      (a + ((seconds ss).take k).sum) := by
  induction ss generalizing tempos start k n x a with
  | nil =>
    obtain rfl : k = 0 := Nat.le_zero.1 hk
    rw [addSegments_of_le htempos (tickOf_zero start []).le, List.take_zero, List.sum_nil, add_zero]
    exact hx
  | cons s ss ih =>
    obtain ⟨hs, hss⟩ := List.forall_mem_cons.1 h
    have hlater : 0 ≤ (seconds ss).sum := List.sum_nonneg (seconds_nonneg hss)
    have hpositive : 0 ≤ a + ((seconds (s :: ss)).take k).sum :=
      add_nonneg ha (List.sum_nonneg fun b hb => seconds_nonneg h b (List.mem_of_mem_take hb))
    rw [List.length_cons] at hcount ⊢
    rw [sum_seconds_cons] at hlimit
    have hlimit' : a + (s.tiles.sum : Nat) * s.pace ≤ 2 ^ 50 := by linarith only [hlater, hlimit]
    -- at the first row no change is over
    rcases Nat.eq_zero_or_pos k with rfl | hpos
    · rw [addSegments_of_le htempos (tickOf_zero start _).le, List.take_zero, List.sum_nil, add_zero]
      exact hx.mono (Nat.le_add_right _ _) ha
    cases tempos with
    | nil => cases htempos
    | cons change tempos =>
      obtain ⟨hhead, hrest⟩ := List.cons.inj htempos
      obtain ⟨rfl, hbpm⟩ := Prod.mk.inj hhead
      rcases Nat.lt_or_ge s.tiles.length k with hbehind | hin
      · -- the whole first stretch is passed, and the others go on from its end
        obtain ⟨j, rfl⟩ := Nat.exists_eq_add_of_le hbehind.le
        have hj : j ≤ (rows ss).length := by
          rw [rows_cons, List.length_append, List.length_map] at hk
          omega
        have hne : ss ≠ [] := by
          rintro rfl
          have hzero : j ≤ 0 := hj
          omega
        have hsum : 0 < s.tiles.sum := List.sum_pos _ hs.tiles_pos hs.tiles_ne
        have hnear := hs.within_add hx hn (by omega) ha hsum le_rfl hlimit'
        have hpos := hs.le_mul hsum
        have hothers := ih hss hrest hj hnear (by omega) (by linarith only [ha, hpos])
          (by linarith only [hlimit]) (by omega)
        rw [Nat.add_assoc, Nat.add_comm 1, add_assoc a] at hothers
        rwa [addSegments_behind hs hbpm hrest hne, sum_take_seconds_cons_add]
      · have hnear := within_addSegments_first hs hbpm hrest hpos hin hx hn (by omega) ha hlimit'
        exact hnear.mono (by omega) hpositive

/-! ## Times that are close to exact -/

/-- The exact time at which row `k` starts. -/
def startOf (ss : List Stretch) (k : Nat) : Rat := ((seconds ss).take k).sum

/-- The computed time between the first `k` rows and the others. -/
def edge (ss : List Stretch) (k : Nat) : Float :=
  ((rowSeconds ss).take k).foldl (· + ·) (Float.ofNat 0)

/-- The computed time of the note of row `k`. -/
def noteTime (ss : List Stretch) (tempos : List (TempoChange Float)) (k : Nat) : Float :=
  TempoChange.secondsAt tempos (tickOf 0 ss k) ticksPerQuarter

section

variable {ss : List Stretch} (h : ∀ s ∈ ss, s.Accurate)
include h

/-- Rows start at least a hundredth of a second apart, up to rounding. -/
theorem startOf_add_le {i k : Nat} (hik : i < k) (hk : k ≤ (rows ss).length) :
    startOf ss i + 99 / 10 ^ 4 ≤ startOf ss k := by
  have hi : i < (seconds ss).length := by
    rw [seconds, List.length_map]
    omega
  have hnext : startOf ss (i + 1) ≤ startOf ss k := by
    have hsub : ((seconds ss).take (i + 1)).Sublist ((seconds ss).take k) :=
      (List.take_prefix_take_left hik).sublist
    exact hsub.sum_le_sum fun a ha => seconds_nonneg h a (List.mem_of_mem_take ha)
  have hrow := le_of_mem_seconds h _ (List.getElem_mem hi)
  have hstep : startOf ss (i + 1) = startOf ss i + (seconds ss)[i] := List.sum_take_succ _ i hi
  linarith

theorem length_le_rows : ss.length ≤ (rows ss).length := by
  induction ss with
  | nil => exact Nat.zero_le _
  | cons s ss ih =>
    obtain ⟨hs, hss⟩ := List.forall_mem_cons.1 h
    have hpos := List.length_pos_iff.2 hs.tiles_ne
    have hrest := ih hss
    rw [rows_cons, List.length_append, List.length_map, List.length_cons]
    omega

theorem length_mul_le : (rows ss).length * (99 / 10 ^ 4) ≤ (seconds ss).sum := by
  have hsum := List.card_nsmul_le_sum (seconds ss) _ (le_of_mem_seconds h)
  rwa [nsmul_eq_mul, seconds, List.length_map] at hsum

variable (hlimit : (rows ss).length * (seconds ss).sum ≤ 10 ^ 12)
include hlimit

theorem length_le : (rows ss).length ≤ 2 ^ 39 := by
  by_contra hlarge
  have hlarge : ((2 ^ 39 : Nat) : Rat) ≤ (rows ss).length := by exact_mod_cast (not_le.1 hlarge).le
  push_cast at hlarge
  have hseconds := length_mul_le h
  nlinarith

theorem seconds_le : (seconds ss).sum ≤ 10 ^ 12 := by
  have hnonneg := List.sum_nonneg (seconds_nonneg h)
  rcases Nat.eq_zero_or_pos (rows ss).length with hzero | hpos
  · have hnil : seconds ss = [] := by
      rw [seconds, List.length_eq_zero_iff.1 hzero, List.map_nil]
    rw [hnil, List.sum_nil]
    positivity
  · have hone : (1 : Rat) ≤ (rows ss).length := by exact_mod_cast hpos
    exact (le_mul_of_one_le_left hnonneg hone).trans hlimit

/-- What is true up to one part a row, and a few more, is close. -/
theorem near_of_within {m k : Nat} {x : Float} (hm : m ≤ (rows ss).length + 6)
    (hk : 0 < (rows ss).length) (hx : Within m x (startOf ss k)) :
    ∃ r, value? x = some r ∧ |r - startOf ss k| ≤ 1 / 500 := by
  refine hx.near ?_
  have hparts : (m : Rat) ≤ 7 * (rows ss).length := by
    exact_mod_cast (by omega : m ≤ 7 * (rows ss).length)
  have hnonneg : 0 ≤ startOf ss k :=
    List.sum_nonneg fun a ha => seconds_nonneg h a (List.mem_of_mem_take ha)
  calc m * startOf ss k ≤ 7 * (rows ss).length * (seconds ss).sum :=
        mul_le_mul hparts (sum_take_le h k) hnonneg (by positivity)
    _ = 7 * ((rows ss).length * (seconds ss).sum) := by ring
    _ ≤ 7 * 10 ^ 12 := by linarith

theorem near_edge {k : Nat} (hpos : 0 < (rows ss).length) (hk : k ≤ (rows ss).length) :
    ∃ r, value? (edge ss k) = some r ∧ |r - startOf ss k| ≤ 1 / 500 := by
  have hseconds := seconds_le h hlimit
  exact near_of_within h hlimit (by omega) hpos
    (within_rows h (by linarith) (length_le h hlimit) hk)

theorem near_noteTime {tempos : List (TempoChange Float)}
    (htempos : tempos.map (fun change => (change.ticks, change.bpm)) = changes 0 ss) {k : Nat}
    (hk : k < (rows ss).length) :
    ∃ r, value? (noteTime ss tempos k) = some r ∧ |r - startOf ss k| ≤ 1 / 500 := by
  have hseconds := seconds_le h hlimit
  have hcount := length_le_rows h
  have hlength := length_le h hlimit
  have hwithin := within_addSegments h htempos hk.le (within_zero 5) le_rfl le_rfl (by linarith) (by omega)
  rw [zero_add] at hwithin
  exact near_of_within h hlimit (by omega) (by omega) hwithin

section

variable {tempos : List (TempoChange Float)}
  (htempos : tempos.map (fun change => (change.ticks, change.bpm)) = changes 0 ss) {i k : Nat}
include htempos

/-- **A note starts no earlier than the rows before its own.** -/
theorem edge_le_noteTime (hik : i < k) (hk : k < (rows ss).length) :
    edge ss i ≤ noteTime ss tempos k := by
  obtain ⟨r, hr, hedge⟩ := near_edge h hlimit (by omega) (by omega : i ≤ (rows ss).length)
  obtain ⟨t, ht, htime⟩ := near_noteTime h hlimit htempos hk
  have hgap := startOf_add_le h hik hk.le
  rw [le_iff hr ht]
  have hupper := (abs_le.1 hedge).2
  have hlower := (abs_le.1 htime).1
  linarith

/-- **A note starts before its row is over.** -/
theorem not_edge_le_noteTime (hki : k < i) (hi : i ≤ (rows ss).length) :
    ¬edge ss i ≤ noteTime ss tempos k := by
  obtain ⟨r, hr, hedge⟩ := near_edge h hlimit (by omega) hi
  obtain ⟨t, ht, htime⟩ := near_noteTime h hlimit htempos (by omega : k < (rows ss).length)
  have hgap := startOf_add_le h hki hi
  rw [le_iff hr ht]
  have hlower := (abs_le.1 hedge).1
  have hupper := (abs_le.1 htime).2
  linarith

omit h hlimit in
/-- The first note and the first row both start at time zero. -/
theorem edge_zero_le_noteTime : edge ss 0 ≤ noteTime ss tempos 0 := by
  have htime : noteTime ss tempos 0 = Float.ofNat 0 := addSegments_of_le htempos le_rfl _
  have hedge : edge ss 0 = Float.ofNat 0 := rfl
  rw [htime, hedge, le_iff value?_zero value?_zero]

omit htempos in
theorem abs_startOf_le : |startOf ss k| ≤ 10 ^ 12 := by
  have hnonneg : 0 ≤ startOf ss k :=
    List.sum_nonneg fun a ha => seconds_nonneg h a (List.mem_of_mem_take ha)
  rw [abs_of_nonneg hnonneg]
  exact (sum_take_le h k).trans (seconds_le h hlimit)

/-- The milliseconds of a note are close to exact. -/
theorem near_toMillis (hk : k < (rows ss).length) :
    |(toMillis (noteTime ss tempos k) : Rat) - startOf ss k * 1000| ≤ 3 := by
  obtain ⟨t, ht, htime⟩ := near_noteTime h hlimit htempos hk
  have hsize := abs_le.1 (abs_startOf_le h hlimit (k := k))
  obtain ⟨hlow, hhigh⟩ := abs_le.1 htime
  have hthousand : value? (Float.ofNat 1000) = some ((1000 : Nat) : Rat) := value?_ofNat (by norm_num)
  have hround := roundsTo_mul ht hthousand
  push_cast at hround
  have hbound : |t * 1000| ≤ (2 ^ 51 : Nat) := by
    rw [abs_le]
    push_cast
    constructor <;> linarith
  obtain ⟨m, hm, hnearest⟩ := hround.value_of_le (by norm_num) hbound
  push_cast at hbound
  have hhalf := hnearest.abs_sub_le_half (hbound.trans (by norm_num))
  have hmsize : |m| ≤ 2 ^ 62 := by
    have hle : |m| ≤ |m - t * 1000| + |t * 1000| := by
      simpa using abs_add_le (m - t * 1000) (t * 1000)
    linarith
  have hwhole := nearestInt64_near hm hmsize
  rw [abs_le] at hhalf hwhole ⊢
  have hmillis : toMillis (noteTime ss tempos k) =
      nearestInt64 (noteTime ss tempos k * Float.ofNat 1000) := rfl
  rw [hmillis]
  constructor <;> linarith

/-- **No two notes start in the same millisecond.** -/
theorem toMillis_ne (hik : i < k) (hk : k < (rows ss).length) :
    toMillis (noteTime ss tempos i) ≠ toMillis (noteTime ss tempos k) := by
  intro heq
  have hfirst := near_toMillis h hlimit htempos (hik.trans hk)
  have hsecond := near_toMillis h hlimit htempos hk
  have hgap := startOf_add_le h hik hk.le
  rw [heq] at hfirst
  rw [abs_le] at hfirst hsecond
  linarith

end

end

end Stretch

end RhythmTiles
