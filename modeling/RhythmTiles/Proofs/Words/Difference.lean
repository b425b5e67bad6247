import RhythmTiles.Proofs.Track.Trim
import RhythmTiles.Proofs.Words.Arithmetic

/-!
# The difference of two tracks on words

Two tracks are walked in step. A pass takes from both what the shorter of their present delays has left,
and a delay that is used up makes place for the next one; zero stands for the end of a track. Every pass
does what a step of `Track.surplus` does, and uses up a delay, so there are no more passes than delays
(`walkInStep_ofRow`). Main theorem: `walk_ends_in_difference`.
-/

namespace RhythmTiles.Words

def subSigned (policy : Overflow) (a b : Int64) : Except Stop Int64 :=
  if policy = .trap ∧ (a - b).toInt ≠ a.toInt - b.toInt then .error .overflow else .ok (a - b)

/-- A walk along the delays of a track: what is left of the present one, zero when all are used up, and
the delays ahead. -/
structure Walk where
  left : UInt64
  ahead : List UInt64

namespace Walk

/-- The walk at the first of some delays. -/
def next : List UInt64 → Walk
  | [] => ⟨0, []⟩
  | delay :: ahead => ⟨delay, ahead⟩

/-- The walk at the first delay of a track that lets time pass. -/
def start (track : Track) : Walk := next ((Track.runs track).map .ofNat)

/-- Takes ticks from the present delay. -/
def take (policy : Overflow) (w : Walk) (ticks : UInt64) : Except Stop Walk := do
  let left ← sub policy w.left ticks
  pure (if left = 0 then next w.ahead else ⟨left, w.ahead⟩)

def remaining (policy : Overflow) (w : Walk) : Except Stop UInt64 := do
  let ahead ← w.ahead.foldlM (add policy) 0
  add policy w.left ahead

end Walk

/-- Takes the shorter of the present delays from both. -/
def pass (policy : Overflow) (reference track : Walk) : Except Stop (Walk × Walk) := do
  let ticks := min reference.left track.left
  let reference ← reference.take policy ticks
  let track ← track.take policy ticks
  pure (reference, track)

/-- What a track has left more than a reference, as a signed word. -/
def surplus (policy : Overflow) (reference track : Walk) : Except Stop Int64 := do
  let reference ← reference.remaining policy
  let track ← track.remaining policy
  subSigned policy track.toInt64 reference.toInt64

/-- Walks in step until one track is used up. There is no answer if that takes more passes than given. -/
def walkInStep (policy : Overflow) (passes : Nat) (reference track : Walk) :
    Option (Except Stop Int64) :=
  if reference.left = 0 ∨ track.left = 0 then some (surplus policy reference track)
  else
    match passes with
    | 0 => none
    | passes + 1 =>
      match pass policy reference track with
      | .ok (reference, track) => walkInStep policy passes reference track
      | .error stop => some (.error stop)

variable {policy : Overflow}

/-! ## Signed words -/

/-- The difference of two lengths that a signed word can measure is a signed word. -/
theorem subSigned_ofNat {a b : Nat} (ha : a < 2 ^ 63) (hb : b < 2 ^ 63) :
    subSigned policy (UInt64.ofNat a).toInt64 (UInt64.ofNat b).toInt64 =
      .ok (Int64.ofInt ((a : Int) - b)) := by
  have hsigned : ∀ n : Nat, (UInt64.ofNat n).toInt64 = Int64.ofInt n := fun n => by
    rw [UInt64.toInt64_ofNat', Int64.ofInt_eq_ofNat]
  have hexact : (Int64.ofInt ((a : Int) - b)).toInt = (Int64.ofInt a).toInt - (Int64.ofInt b).toInt := by
    rw [Int64.toInt_ofInt_of_le (by omega) (by omega), Int64.toInt_ofInt_of_le (by omega) (by omega),
      Int64.toInt_ofInt_of_le (by omega) (by omega)]
  rw [hsigned, hsigned, subSigned, ← Int64.ofInt_sub, if_neg fun h => h.2 hexact]

/-! ## Rows of delays -/

/-- Delays that let time pass, of a length that a signed word can measure. -/
structure IsRow (delays : List Nat) : Prop where
  pos : ∀ delay ∈ delays, 0 < delay
  sum_lt : delays.sum < 2 ^ 63

/-- The walk at the start of a row of delays. -/
def ofRow (delays : List Nat) : Walk := .next (delays.map .ofNat)

theorem isRow_runs {track : Track} (h : track.ticks < 2 ^ 63) : IsRow (Track.runs track) where
  pos := by
    intro delay hdelay
    exact of_decide_eq_true (List.mem_filter.1 hdelay).2
  sum_lt := by
    rw [Track.sum_runs]
    exact h

variable {delay ticks : Nat} {delays : List Nat}

theorem IsRow.tail (h : IsRow (delay :: delays)) : IsRow delays where
  pos := fun other hother => h.pos other (List.mem_cons_of_mem delay hother)
  sum_lt := by
    have hsum := h.sum_lt
    rw [List.sum_cons] at hsum
    omega

theorem IsRow.head_lt (h : IsRow (delay :: delays)) : 0 < delay ∧ delay < 2 ^ 63 := by
  have hsum := h.sum_lt
  rw [List.sum_cons] at hsum
  exact ⟨h.pos delay List.mem_cons_self, by omega⟩

theorem IsRow.shorten (h : IsRow (delay :: delays)) (hlt : ticks < delay) :
    IsRow ((delay - ticks) :: delays) where
  pos := List.forall_mem_cons.2 ⟨by omega, h.tail.pos⟩
  sum_lt := by
    have hsum := h.sum_lt
    rw [List.sum_cons] at hsum ⊢
    omega

/-- A walk is at its end if its row is empty, and only then. -/
theorem left_ofRow_eq_zero (h : IsRow delays) : (ofRow delays).left = 0 ↔ delays = [] := by
  cases delays with
  | nil => simp [ofRow, Walk.next]
  | cons delay delays =>
    obtain ⟨hpos, hlt⟩ := h.head_lt
    have hleft : (ofRow (delay :: delays)).left = .ofNat delay := rfl
    rw [hleft, ofNat_eq_zero (by omega)]
    simp only [reduceCtorEq, iff_false]
    omega

/-- Taking all of a delay leads to the next one. -/
theorem take_ofRow (h : IsRow (delay :: delays)) :
    (ofRow (delay :: delays)).take policy (.ofNat delay) = .ok (ofRow delays) := by
  obtain ⟨-, hlt⟩ := h.head_lt
  show (sub policy (.ofNat delay) (.ofNat delay) >>= fun left => _) = _
  rw [sub_ofNat (by omega) (Nat.le_refl delay), ok_bind, Nat.sub_self]
  rfl

/-- Taking less leaves the rest of the delay. -/
theorem take_ofRow_of_lt (h : IsRow (delay :: delays)) (hlt : ticks < delay) :
    (ofRow (delay :: delays)).take policy (.ofNat ticks) = .ok (ofRow ((delay - ticks) :: delays)) := by
  obtain ⟨-, hdelay⟩ := h.head_lt
  have hrest : ¬UInt64.ofNat (delay - ticks) = 0 := by
    rw [ofNat_eq_zero (by omega)]
    omega
  show (sub policy (.ofNat delay) (.ofNat ticks) >>= fun left => _) = _
  rw [sub_ofNat (by omega) (Nat.le_of_lt hlt), ok_bind, if_neg hrest]
  rfl

theorem foldlM_add_ofNat {start : Nat} (h : start + delays.sum < 2 ^ 64) :
    (delays.map UInt64.ofNat).foldlM (add policy) (.ofNat start) =
      .ok (.ofNat (start + delays.sum)) := by
  induction delays generalizing start with
  | nil => rfl
  | cons delay delays ih =>
    rw [List.sum_cons, ← Nat.add_assoc] at h ⊢
    rw [List.map_cons, List.foldlM_cons, add_ofNat (by omega), ok_bind, ih h]

theorem remaining_ofRow (h : IsRow delays) :
    (ofRow delays).remaining policy = .ok (.ofNat delays.sum) := by
  have hsum := h.sum_lt
  cases delays with
  | nil => exact add_ofNat (by decide : 0 + 0 < 2 ^ 64)
  | cons delay delays =>
    rw [List.sum_cons] at hsum
    have hahead : (delays.map UInt64.ofNat).foldlM (add policy) (.ofNat 0) = _ :=
      foldlM_add_ofNat (by omega)
    show ((delays.map UInt64.ofNat).foldlM (add policy) (.ofNat 0) >>= fun ahead => _) = _
    rw [hahead, ok_bind, Nat.zero_add]
    exact add_ofNat (by omega)

/-! ## Walking in step -/

variable {rs ts : List Nat} {r t : Nat}

theorem surplus_ofRow (hrs : IsRow rs) (hts : IsRow ts) :
    surplus policy (ofRow rs) (ofRow ts) = .ok (Int64.ofInt ((ts.sum : Int) - rs.sum)) := by
  rw [surplus, remaining_ofRow hrs, ok_bind, remaining_ofRow hts, ok_bind]
  exact subSigned_ofNat hts.sum_lt hrs.sum_lt

theorem min_left_ofRow (hrs : IsRow (r :: rs)) (hts : IsRow (t :: ts)) :
    min (ofRow (r :: rs)).left (ofRow (t :: ts)).left = .ofNat (min r t) := by
  obtain ⟨-, hr⟩ := hrs.head_lt
  obtain ⟨-, ht⟩ := hts.head_lt
  exact ofNat_min (by omega) (by omega)

/-- A pass uses up two equal delays. -/
theorem pass_of_eq (hrs : IsRow (r :: rs)) (hts : IsRow (r :: ts)) :
    pass policy (ofRow (r :: rs)) (ofRow (r :: ts)) = .ok (ofRow rs, ofRow ts) := by
  rw [pass, min_left_ofRow hrs hts, Nat.min_self, take_ofRow hrs, ok_bind, take_ofRow hts]
  rfl

/-- A pass uses up the shorter delay. -/
theorem pass_of_lt (hrs : IsRow (r :: rs)) (hts : IsRow (t :: ts)) (hlt : r < t) :
    pass policy (ofRow (r :: rs)) (ofRow (t :: ts)) = .ok (ofRow rs, ofRow ((t - r) :: ts)) := by
  rw [pass, min_left_ofRow hrs hts, Nat.min_eq_left hlt.le, take_ofRow hrs, ok_bind,
    take_ofRow_of_lt hts hlt]
  rfl

theorem pass_of_gt (hrs : IsRow (r :: rs)) (hts : IsRow (t :: ts)) (hlt : t < r) :
    pass policy (ofRow (r :: rs)) (ofRow (t :: ts)) = .ok (ofRow ((r - t) :: rs), ofRow ts) := by
  rw [pass, min_left_ofRow hrs hts, Nat.min_eq_right hlt.le, take_ofRow_of_lt hrs hlt, ok_bind,
    take_ofRow hts]
  rfl

theorem walkInStep_over (hrs : IsRow rs) (hts : IsRow ts) (hover : rs = [] ∨ ts = []) (passes : Nat) :
    walkInStep policy passes (ofRow rs) (ofRow ts) =
      some (.ok (Int64.ofInt ((ts.sum : Int) - rs.sum))) := by
  have hend : (ofRow rs).left = 0 ∨ (ofRow ts).left = 0 :=
    hover.imp (left_ofRow_eq_zero hrs).2 (left_ofRow_eq_zero hts).2
  rw [walkInStep.eq_def, if_pos hend, surplus_ofRow hrs hts]

theorem walkInStep_succ (hrs : IsRow (r :: rs)) (hts : IsRow (t :: ts)) {reference track : Walk}
    (hpass : pass policy (ofRow (r :: rs)) (ofRow (t :: ts)) = .ok (reference, track)) (passes : Nat) :
    walkInStep policy (passes + 1) (ofRow (r :: rs)) (ofRow (t :: ts)) =
      walkInStep policy passes reference track := by
  have hgoing : ¬((ofRow (r :: rs)).left = 0 ∨ (ofRow (t :: ts)).left = 0) := by
    simp [left_ofRow_eq_zero hrs, left_ofRow_eq_zero hts]
  rw [walkInStep, if_neg hgoing, hpass]

/-- **The walk ends after no more passes than there are delays**, with the surplus. -/
theorem walkInStep_ofRow (hrs : IsRow rs) (hts : IsRow ts) {passes : Nat}
    (hpasses : rs.length + ts.length ≤ passes) :
    walkInStep policy passes (ofRow rs) (ofRow ts) =
      some (.ok (Int64.ofInt (Track.surplus rs ts))) := by
  -- each pass uses up a delay, of one track or of both
  fun_induction Track.surplus rs ts generalizing passes with
  | case1 ts =>
    rw [walkInStep_over hrs hts (Or.inl rfl), ← List.sum_eq_foldl_nat]
    simp
  | case2 rs =>
    rw [walkInStep_over hrs hts (Or.inr rfl), ← List.sum_eq_foldl_nat]
    simp
  | case3 r rs ts ih =>
    simp only [List.length_cons] at hpasses
    obtain ⟨passes, rfl⟩ := Nat.exists_eq_add_one.2 (by omega : 0 < passes)
    rw [walkInStep_succ hrs hts (pass_of_eq hrs hts)]
    exact ih hrs.tail hts.tail (by omega)
  | case4 r rs t ts hne hlt ih =>
    simp only [List.length_cons] at hpasses ih
    obtain ⟨passes, rfl⟩ := Nat.exists_eq_add_one.2 (by omega : 0 < passes)
    rw [walkInStep_succ hrs hts (pass_of_lt hrs hts hlt)]
    exact ih hrs.tail (hts.shorten hlt) (by omega)
  | case5 r rs t ts hne hle ih =>
    have hlt : t < r := by omega
    simp only [List.length_cons] at hpasses ih
    obtain ⟨passes, rfl⟩ := Nat.exists_eq_add_one.2 (by omega : 0 < passes)
    rw [walkInStep_succ hrs hts (pass_of_gt hrs hts hlt)]
    exact ih (hrs.shorten hlt) hts.tail (by omega)

/-- **Walking two tracks in step finds their difference.** Where signed words can measure the tracks, the
walk on words ends after no more passes than there are delays, nothing in it exceeds a word, and the answer
is by how many ticks the track is longer than the reference. -/
theorem walk_ends_in_difference {reference track : Track} (href : reference.ticks < 2 ^ 63)
    (htrack : track.ticks < 2 ^ 63) :
    Track.difference reference track = (track.ticks : Int) - reference.ticks ∧
      ∀ policy passes, (Track.runs reference).length + (Track.runs track).length ≤ passes →
        ∃ difference : Int64,
          walkInStep policy passes (.start reference) (.start track) = some (.ok difference) ∧
            difference.toInt = (track.ticks : Int) - reference.ticks := by
  refine ⟨Track.difference_eq href htrack, fun policy passes hpasses => ?_⟩
  refine ⟨_, walkInStep_ofRow (isRow_runs href) (isRow_runs htrack) hpasses, ?_⟩
  rw [Track.surplus_eq, Track.sum_runs, Track.sum_runs]
  exact Int64.toInt_ofInt_of_le (by omega) (by omega)

/-- Delays of no time, runs of single ticks and a note between them, a track without delays, and one that
takes up all that a signed word measures. -/
theorem walk_ends_in_difference_irregular :
    let reference : Track := [.delay 30, .on 60, .delay 0, .delay 50, .off 60]
    let track : Track := [.delay 0, .delay 1, .delay 1, .on 62, .delay 9, .delay 45, .off 62, .delay 44]
    let longest : Track := [.delay (2 ^ 62), .delay (2 ^ 62 - 1)]
    (reference.ticks < 2 ^ 63 ∧ track.ticks < 2 ^ 63 ∧ longest.ticks < 2 ^ 63) ∧
      Track.difference reference track = 20 ∧
      Track.difference longest [.on 60, .off 60] = -(2 ^ 63 - 1) ∧
      (∃ difference : Int64, walkInStep .trap 7 (.start reference) (.start track) =
        some (.ok difference) ∧ difference.toInt = 20) ∧
      ∃ difference : Int64, walkInStep .trap 2 (.start longest) (.start [.delay 0]) =
        some (.ok difference) ∧ difference.toInt = -(2 ^ 63 - 1) := by
  intro reference track longest
  have href : reference.ticks < 2 ^ 63 := by decide
  have htrack : track.ticks < 2 ^ 63 := by decide
  have hlongest : longest.ticks < 2 ^ 63 := by decide
  obtain ⟨hdifference, hwalk⟩ := walk_ends_in_difference href htrack
  have hsilent : Track.ticks [.on 60, .off 60] < 2 ^ 63 := by decide
  have hidle : Track.ticks [.delay 0] < 2 ^ 63 := by decide
  obtain ⟨hnone, -⟩ := walk_ends_in_difference hlongest hsilent
  obtain ⟨-, hlong⟩ := walk_ends_in_difference hlongest hidle
  exact ⟨⟨href, htrack, hlongest⟩, hdifference, hnone, hwalk .trap 7 (by decide),
    hlong .trap 2 (by decide)⟩

end RhythmTiles.Words
