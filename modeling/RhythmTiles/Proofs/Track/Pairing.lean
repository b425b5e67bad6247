import RhythmTiles.Proofs.SideBySide
import RhythmTiles.Proofs.Track.Closed
import RhythmTiles.Proofs.Track.Trim

/-!
# Starts and ends belong together

The starts and ends of one pitch in a closed track are like brackets: a start and an end belong together
when between them the pitch comes back to where it was (`Joins`). Each start then has one end and each end
one start, and the notes that are read are those of the ends, one for each, in order: main theorem
`Closed.isPaired`.
-/

namespace RhythmTiles.Track

/-- Event `i` starts the note that event `j` ends. Between them all notes of the pitch that start also end,
and no other note of it does. -/
structure Joins (track : Track) (pitch : Pitch) (i j : Nat) : Prop where
  starts : track[i]? = some (.on pitch)
  ends : track[j]? = some (.off pitch)
  before : i < j
  between : countAfter? pitch 0 ((track.take j).drop (i + 1)) = some 0

/-- The ends of a track from place `place` on, with their places. -/
def endsFrom (place : Nat) : Track → List (Nat × Pitch)
  | [] => []
  | .off p :: track => (place, p) :: endsFrom (place + 1) track
  | .on _ :: track => endsFrom (place + 1) track
  | .delay _ :: track => endsFrom (place + 1) track
  | .silent :: track => endsFrom (place + 1) track

/-- The note from event `i` to event `j`. -/
def spanBetween (track : Track) (pitch : Pitch) (i j : Nat) : Span :=
  ⟨pitch, ticks (track.take i), ticks (track.take j)⟩

/-- Starts and ends belong together in pairs, and `spans` are the notes of these pairs as they end. -/
structure IsPaired (track : Track) (spans : List Span) : Prop where
  spans : List.Forall₂
    (fun ending span => ∃ i, Joins track ending.2 i ending.1 ∧
      span = spanBetween track ending.2 i ending.1)
    (endsFrom 0 track) spans
  start : ∀ j p, track[j]? = some (.off p) → ∃! i, Joins track p i j
  stop : ∀ i p, track[i]? = some (.on p) → ∃! j, Joins track p i j

/-! ## Counting between two events -/

/-- More notes that are open below do not matter. -/
theorem countAfter?_add {p : Pitch} {count left : Nat} {track : Track}
    (h : countAfter? p count track = some left) (below : Nat) :
    countAfter? p (count + below) track = some (left + below) := by
  induction track generalizing count with
  | nil =>
    cases h
    rfl
  | cons event track ih =>
    cases event with
    | on q =>
      by_cases hq : q = p
      · simp only [countAfter?, hq, if_true] at h ⊢
        rw [Nat.add_right_comm]
        exact ih h
      · simp only [countAfter?, hq, if_false] at h ⊢
        exact ih h
    | off q =>
      by_cases hq : q = p
      · by_cases hzero : count = 0
        · simp [countAfter?, hq, hzero] at h
        · have hpred : count + below - 1 = count - 1 + below := by omega
          have hpos : ¬count + below = 0 := by omega
          simp only [countAfter?, hq, hzero, hpos, hpred, if_true, if_false] at h ⊢
          exact ih h
      · simp only [countAfter?, hq, if_false] at h ⊢
        exact ih h
    | delay t | silent => exact ih h

theorem countAfter?_cons (p : Pitch) (count : Nat) (event : Event) (track : Track) :
    countAfter? p count (event :: track) =
      (countAfter? p count [event]).bind fun count => countAfter? p count track :=
  countAfter?_append p count [event] track

/-- The count of a pitch ends at an end of it for which no note is open. -/
theorem eq_off_of_countAfter? {p : Pitch} {count : Nat} {event : Event}
    (h : countAfter? p count [event] = none) : event = .off p ∧ count = 0 := by
  cases event with
  | off q =>
    by_cases hq : q = p
    · by_cases hzero : count = 0
      · exact ⟨by rw [hq], hzero⟩
      · simp [countAfter?, hq, hzero] at h
    · simp [countAfter?, hq] at h
  | on q | delay t | silent => simp [countAfter?] at h

/-- Where more than `below` notes are open and none stays open, one comes to its end with `below` left. -/
theorem exists_end {p : Pitch} {count below : Nat} {track : Track}
    (h : countAfter? p (count + (1 + below)) track = some 0) :
    ∃ inside rest, track = inside ++ .off p :: rest ∧ countAfter? p count inside = some 0 := by
  induction track generalizing count with
  | nil =>
    simp only [countAfter?, Option.some.injEq] at h
    omega
  | cons event track ih =>
    cases hevent : countAfter? p count [event] with
    | none =>
      obtain ⟨rfl, rfl⟩ := eq_off_of_countAfter? hevent
      exact ⟨[], track, rfl, rfl⟩
    | some next =>
      rw [countAfter?_cons, countAfter?_add hevent, Option.bind_some] at h
      obtain ⟨inside, rest, rfl, hinside⟩ := ih h
      refine ⟨event :: inside, rest, rfl, ?_⟩
      rw [countAfter?_cons, hevent]
      exact hinside

/-- What lies between two events is cut in three by an event among it. -/
theorem between_eq {track : Track} {event : Event} {i k j : Nat} (hk : track[k]? = some event)
    (hik : i < k) (hkj : k < j) :
    (track.take j).drop (i + 1) =
      (track.take k).drop (i + 1) ++ event :: (track.take j).drop (k + 1) := by
  obtain ⟨hlt, hget⟩ := List.getElem?_eq_some_iff.1 hk
  have hkj' : k < (track.take j).length := by
    rw [List.length_take]
    omega
  have hcut : track.take j = track.take k ++ event :: (track.take j).drop (k + 1) := by
    have hhead : (track.take j)[k] = event := by rw [List.getElem_take, hget]
    have hfirst : (track.take j).take k = track.take k := by
      rw [List.take_take, Nat.min_eq_left hkj.le]
    rw [← hfirst, ← hhead, List.getElem_cons_drop, List.take_append_drop]
  have hlength : i + 1 ≤ (track.take k).length := by
    rw [List.length_take]
    omega
  rw [hcut, List.drop_append_of_le_length hlength, ← hcut]

/-- A start has no second end. -/
theorem Joins.not_lt_end {track : Track} {p : Pitch} {i j j' : Nat} (h : Joins track p i j)
    (h' : Joins track p i j') : ¬j < j' := by
  intro hlt
  have hbetween := h'.between
  rw [between_eq h.ends h.before hlt, countAfter?_append, h.between] at hbetween
  simp [countAfter?] at hbetween

/-- An end has no second start. -/
theorem Joins.not_lt_start {track : Track} {p : Pitch} {i i' j : Nat} (h : Joins track p i j)
    (h' : Joins track p i' j) : ¬i < i' := by
  intro hlt
  have hbetween := h.between
  rw [between_eq h'.starts hlt h'.before, countAfter?_append] at hbetween
  obtain ⟨count, -, hcount⟩ := Option.bind_eq_some_iff.1 hbetween
  have hmore := countAfter?_add h'.between (count + 1)
  simp only [countAfter?, if_true] at hcount
  rw [Nat.zero_add, hcount] at hmore
  cases hmore

/-- **Every start of a closed track has an end.** -/
theorem Closed.exists_joins {track : Track} (h : Closed track) {i : Nat} {p : Pitch}
    (hi : track[i]? = some (.on p)) : ∃ j, Joins track p i j := by
  obtain ⟨hlt, hget⟩ := List.getElem?_eq_some_iff.1 hi
  have hcut : track = track.take i ++ .on p :: track.drop (i + 1) := by
    rw [← hget, List.getElem_cons_drop, List.take_append_drop]
  have hcount := closed_iff.1 h p
  rw [hcut, countAfter?_append] at hcount
  obtain ⟨below, -, hrest⟩ := Option.bind_eq_some_iff.1 hcount
  simp only [countAfter?, if_true] at hrest
  have hopen : countAfter? p (0 + (1 + below)) (track.drop (i + 1)) = some 0 := by
    rw [Nat.zero_add, Nat.add_comm]
    exact hrest
  -- the end is where the count falls back to what was open before the start
  obtain ⟨inside, rest, hsplit, hinside⟩ := exists_end hopen
  have hlength : (track.take i).length = i := by
    rw [List.length_take]
    omega
  rw [hsplit] at hcut
  refine ⟨i + 1 + inside.length, hi, ?_, by omega, ?_⟩
  · rw [hcut, List.getElem?_append_right (by omega), hlength]
    have hplace : i + 1 + inside.length - i = inside.length + 1 := by omega
    rw [hplace, List.getElem?_cons_succ, List.getElem?_append_right (Nat.le_refl _), Nat.sub_self]
    rfl
  · rw [List.drop_take, hsplit]
    have hplace : i + 1 + inside.length - (i + 1) = inside.length := by omega
    rw [hplace, List.take_left]
    exact hinside

/-! ## Reading -/

/-- Where the open notes behind some events started: at starts of their pitches, and since then as many
notes of the pitch have been opened and left open as are listed before. -/
def Opened (done : Track) (places : List (Pitch × Nat)) : Prop :=
  ∀ p k i, (startsOf p places)[k]? = some i →
    done[i]? = some (.on p) ∧ countAfter? p 0 (done.drop (i + 1)) = some k

theorem opened_nil : Opened [] [] := by
  intro p k i h
  simp [startsOf] at h

/-- One more event, which takes the pitch from `k` open notes to `k'`. -/
theorem Opened.later {done : Track} {places : List (Pitch × Nat)} (h : Opened done places) {p : Pitch}
    {k k' i : Nat} {event : Event} (hi : (startsOf p places)[k]? = some i)
    (hevent : countAfter? p k [event] = some k') :
    (done ++ [event])[i]? = some (.on p) ∧
      countAfter? p 0 ((done ++ [event]).drop (i + 1)) = some k' := by
  obtain ⟨hstart, hcount⟩ := h p k i hi
  obtain ⟨hlt, -⟩ := List.getElem?_eq_some_iff.1 hstart
  rw [List.getElem?_append_left hlt, List.drop_append_of_le_length hlt, countAfter?_append, hcount]
  exact ⟨hstart, hevent⟩

theorem Opened.on {done : Track} {places : List (Pitch × Nat)} (h : Opened done places) (p : Pitch) :
    Opened (done ++ [.on p]) ((p, done.length) :: places) := by
  intro q k i hi
  by_cases hq : p = q
  · subst hq
    rw [startsOf, if_pos rfl] at hi
    cases k with
    | zero =>
      cases hi
      simp [countAfter?]
    | succ k => exact h.later hi (by simp [countAfter?])
  · rw [startsOf, if_neg hq] at hi
    exact h.later hi (by simp [countAfter?, hq])

theorem Opened.off {done : Track} {places rest : List (Pitch × Nat)} (h : Opened done places)
    {p : Pitch} {start : Nat} (hclose : closeNote p places = some (start, rest)) :
    Opened (done ++ [.off p]) rest := by
  obtain ⟨hsame, hother⟩ := startsOf_of_closeNote hclose
  intro q k i hi
  by_cases hq : q = p
  · subst hq
    have hi' : (startsOf q places)[k + 1]? = some i := by
      rw [hsame]
      exact hi
    exact h.later hi' (by simp [countAfter?])
  · have hp : ¬p = q := fun e => hq e.symm
    rw [← hother q hq] at hi
    exact h.later hi (by simp [countAfter?, hp])

theorem Opened.idle {done : Track} {places : List (Pitch × Nat)} (h : Opened done places)
    {event : Event} (hevent : ∀ p k, countAfter? p k [event] = some k) :
    Opened (done ++ [event]) places :=
  fun p k _ hi => h.later hi (hevent p k)

/-- The note that an end takes started at the start that it belongs to. -/
theorem Opened.joins {done track : Track} {places rest : List (Pitch × Nat)} (h : Opened done places)
    {p : Pitch} {start : Nat} (hclose : closeNote p places = some (start, rest)) :
    Joins (done ++ .off p :: track) p start done.length := by
  obtain ⟨hsame, -⟩ := startsOf_of_closeNote hclose
  obtain ⟨hstart, hcount⟩ := h p 0 start (by rw [hsame]; rfl)
  obtain ⟨hlt, -⟩ := List.getElem?_eq_some_iff.1 hstart
  constructor
  · rw [List.getElem?_append_left hlt]
    exact hstart
  · simp
  · exact hlt
  · rw [List.take_left]
    exact hcount

/-- The notes that are read behind some events belong to the ends that follow. -/
theorem forall₂_readNotes {full done track : Track} (hfull : full = done ++ track)
    {places : List (Pitch × Nat)} (hplaces : Opened done places) {left : List (Pitch × Nat)}
    (h : openAfter? (ticks done) (places.map (Prod.map id fun i => ticks (full.take i))) track =
      some left) :
    List.Forall₂
      (fun ending span => ∃ i, Joins full ending.2 i ending.1 ∧
        span = spanBetween full ending.2 i ending.1)
      (endsFrom done.length track)
      (readNotes (ticks done) (places.map (Prod.map id fun i => ticks (full.take i))) track) := by
  induction track generalizing done places with
  | nil => exact .nil
  | cons event track ih =>
    have hnext : full = done ++ [event] ++ track := by rw [hfull, List.append_assoc]; rfl
    have hlength : (done ++ [event]).length = done.length + 1 := List.length_append
    have hticks : ticks (done ++ [event]) = ticks done + event.ticks := by simp
    have hnow : ticks (full.take done.length) = ticks done := by rw [hfull, List.take_left]
    -- only an end reads a note; every other event just changes what is open
    cases event with
    | on p =>
      have ih := ih hnext (hplaces.on p)
      simp only [List.map_cons, Prod.map, id_eq, hnow, hlength, hticks, Event.ticks, Nat.add_zero] at ih
      exact ih h
    | off p =>
      rw [openAfter?, closeNote_map] at h
      obtain ⟨found, hclose, h⟩ := Option.bind_eq_some_iff.1 h
      obtain ⟨⟨start, rest⟩, hplace, rfl⟩ := Option.map_eq_some_iff.1 hclose
      have ih := ih hnext (hplaces.off hplace)
      simp only [hlength, hticks, Event.ticks, Nat.add_zero] at ih
      have hjoins : Joins full p start done.length := hfull ▸ hplaces.joins hplace
      rw [endsFrom, readNotes, closeNote_map, hplace]
      refine .cons ⟨start, hjoins, ?_⟩ (ih h)
      simp only [spanBetween, hnow]
    | delay t =>
      have ih := ih hnext (hplaces.idle fun p k => rfl)
      simp only [hlength, hticks, Event.ticks] at ih
      exact ih h
    | silent =>
      have ih := ih hnext (hplaces.idle fun p k => rfl)
      simp only [hlength, hticks, Event.ticks, Nat.add_zero] at ih
      exact ih h

theorem exists_endsFrom {track : Track} {j : Nat} {p : Pitch} (h : track[j]? = some (.off p))
    (place : Nat) : (place + j, p) ∈ endsFrom place track := by
  induction track generalizing j place with
  | nil => simp at h
  | cons event track ih =>
    cases j with
    | zero =>
      cases h
      exact List.mem_cons_self
    | succ j =>
      have hrest := ih h (place + 1)
      rw [Nat.add_assoc, Nat.add_comm 1 j] at hrest
      cases event with
      | off q => exact List.mem_cons_of_mem _ hrest
      | on q | delay t | silent => exact hrest

/-- **The notes of a closed track are those between its starts and its ends.** -/
theorem Closed.isPaired {track : Track} (h : Closed track) : IsPaired track track.notes := by
  have hspans := forall₂_readNotes (rfl : track = [] ++ track) opened_nil h
  refine ⟨hspans, ?_, ?_⟩
  · intro j p hj
    have hmem := exists_endsFrom hj 0
    rw [Nat.zero_add] at hmem
    obtain ⟨span, -, i, hi, -⟩ := exists_of_mem_left hspans hmem
    refine ⟨i, hi, fun i' hi' => ?_⟩
    have hge := hi.not_lt_start hi'
    have hle := hi'.not_lt_start hi
    omega
  · intro i p hi
    obtain ⟨j, hj⟩ := h.exists_joins hi
    refine ⟨j, hj, fun j' hj' => ?_⟩
    have hge := hj.not_lt_end hj'
    have hle := hj'.not_lt_end hj
    omega

end RhythmTiles.Track
