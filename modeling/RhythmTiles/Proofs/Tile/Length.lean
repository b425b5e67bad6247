import RhythmTiles.Proofs.Score.Length
import RhythmTiles.Proofs.Tile.Cuts

/-!
# The length of rows and of tracks

Cutting a score into pieces drops only separators and blanks, so the pieces have its letters, in order
(`letters_split`). A piece lasts as long as its sounding letters, or as its rest letters where it has
no others (`duration_ofText`). The rest letters of other pieces are what rows leave out and tracks keep.
Main theorem: `rows_and_track`.
-/

namespace RhythmTiles

namespace Piece

open Letter

/-! ## Pieces -/

theorem letters_trim (cs : List Char) : letters (Text.trim cs) = letters cs := by
  apply filter_dropWhile_rdropWhile
  intro c hc
  exact Score.isLength_eq_false (Score.isAlpha_of_isBlank hc)

theorem isLength_of_isSeparator {c : Char} (h : isSeparator c = true) : isLength c = false :=
  Score.isLength_of_isGap (by rw [Score.isGap, Score.isSeparator, ← isSeparator, h, Bool.or_true])

theorem letters_segments (depth : Nat) (current cs : List Char) :
    (segments depth current cs).flatMap letters = letters current.reverse ++ letters cs := by
  fun_induction segments depth current cs with
  | case1 depth current => simp [letters]
  | case2 depth current c cs hcut ih =>
    have hc := isLength_of_isSeparator (Bool.and_eq_true_iff.1 hcut).1
    rw [List.flatMap_cons, ih, letters_cons_of_not hc]
    rfl
  | case3 depth current c cs hcut ih =>
    rw [ih, List.reverse_cons, letters_append, List.append_assoc, ← letters_append]
    rfl

/-- **Cutting a score loses no letter.** -/
theorem letters_split (score : List Char) : (split score).flatMap letters = letters score := by
  have htrim : ∀ texts : List (List Char),
      ((texts.map Text.trim).filter fun piece => !piece.isEmpty).flatMap letters =
        texts.flatMap letters := by
    intro texts
    induction texts with
    | nil => rfl
    | cons text texts ih =>
      rw [List.map_cons, List.flatMap_cons, ← ih, ← letters_trim text]
      cases Text.trim text <;> rfl
  rw [split, htrim, letters_segments]
  rfl

/-- A group is a digit before angle brackets that hold all else. -/
theorem group?_eq_some {text content : List Char} {digit : Char} :
    group? text = some (digit, content) ↔
      digit.isDigit = true ∧ text = digit :: '<' :: (content ++ ['>']) := by
  constructor
  · intro h
    unfold group? at h
    split at h
    · rename_i d cs
      by_cases hdigit : d.isDigit = true
      · rw [if_pos hdigit] at h
        obtain ⟨inner, hinner, h⟩ := Option.map_eq_some_iff.1 h
        cases h
        unfold beforeLast? at hinner
        by_cases hlast : cs.getLast? = some '>'
        · rw [if_pos hlast] at hinner
          cases hinner
          rw [List.dropLast_append_getLast? '>' hlast]
          exact ⟨hdigit, rfl⟩
        · rw [if_neg hlast] at hinner
          cases hinner
      · rw [if_neg hdigit] at h
        cases h
    · cases h
  · rintro ⟨hdigit, rfl⟩
    simp [group?, beforeLast?, hdigit]

theorem ofText_of_group {text content : List Char} {digit : Char}
    (h : group? (Text.trim text) = some (digit, content)) :
    ofText text = ⟨soundTotal content, if digit = '5' then .double else .single⟩ := by
  simp [ofText, h]

theorem ofText_of_not_group {text : List Char} (h : group? (Text.trim text) = none) :
    ofText text = if isRestRun (Text.trim text) then ⟨restTotal (Text.trim text), .empty⟩
      else ⟨soundTotal (Text.trim text), .single⟩ := by
  simp [ofText, h]

/-- What stands inside a group are all its letters, and it is no row of rest letters. -/
theorem letters_of_group {text content : List Char} {digit : Char}
    (h : group? text = some (digit, content)) :
    letters content = letters text ∧ isRestRun text = false := by
  obtain ⟨hdigit, rfl⟩ := group?_eq_some.1 h
  have halpha := Score.isAlpha_of_isDigit hdigit
  constructor
  · rw [letters_cons_of_not (Score.isLength_eq_false halpha), letters_cons_of_not (by decide),
      letters_append]
    exact (List.append_nil _).symm
  · simp [isRestRun, Score.isRest_eq_false halpha]

theorem duration_ofText {text : List Char} (h : Text.trim text = text) :
    (ofText text).duration = soundTotal text + if isRestRun text then restTotal text else 0 := by
  cases hgroup : group? text with
  | some group =>
    obtain ⟨digit, content⟩ := group
    obtain ⟨hletters, hrun⟩ := letters_of_group hgroup
    rw [ofText_of_group (h.symm ▸ hgroup), hrun, ← soundTotal_letters text, ← hletters,
      soundTotal_letters]
    rfl
  | none =>
    rw [ofText_of_not_group (h.symm ▸ hgroup), h]
    cases hrun : isRestRun text with
    | true =>
      have hsilent : soundTotal text = 0 := by
        rw [soundTotal_eq, List.filterMap_eq_nil_iff.2, List.sum_nil]
        intro c hc
        exact soundUnits?_of_isRest (List.all_eq_true.1 (Bool.and_eq_true_iff.1 hrun).2 c hc)
      rw [hsilent, Nat.zero_add]
      rfl
    | false => rfl

/-! ## All pieces -/

theorem sum_durations {pieces : List (List Char)} (h : ∀ piece ∈ pieces, Text.trim piece = piece) :
    ((pieces.map ofText).map Piece.duration).sum =
      soundTotal (pieces.flatMap letters) + ((pieces.filter isRestRun).map restTotal).sum := by
  induction pieces with
  | nil => rfl
  | cons piece pieces ih =>
    obtain ⟨hpiece, hpieces⟩ := List.forall_mem_cons.1 h
    simp only [List.map_cons, List.sum_cons, List.flatMap_cons, soundTotal_append, ih hpieces,
      duration_ofText hpiece, soundTotal_letters]
    cases hrun : isRestRun piece with
    | true =>
      rw [if_pos rfl, List.filter_cons_of_pos hrun, List.map_cons, List.sum_cons]
      omega
    | false =>
      rw [if_neg Bool.false_ne_true, List.filter_cons_of_neg (by simp [hrun])]
      omega

theorem sum_restTotal (pieces : List (List Char)) :
    ((pieces.filter isRestRun).map restTotal).sum +
        ((pieces.filter fun piece => !isRestRun piece).map restTotal).sum =
      restTotal (pieces.flatMap letters) := by
  induction pieces with
  | nil => rfl
  | cons piece pieces ih =>
    rw [List.flatMap_cons, restTotal_append, restTotal_letters, ← ih]
    cases hrun : isRestRun piece with
    | true =>
      rw [List.filter_cons_of_pos hrun, List.filter_cons_of_neg (by simp [hrun]), List.map_cons,
        List.sum_cons]
      omega
    | false =>
      rw [List.filter_cons_of_neg (by simp [hrun]), List.filter_cons_of_pos (by simp [hrun]),
        List.map_cons, List.sum_cons]
      omega

/-- **Rows and track differ by the rest letters that rows leave out**: those of pieces that are no
rests. -/
theorem rows_and_track (score : List Char) :
    ((ofScore score).map Piece.duration).sum =
      soundTotal score + (((split score).filter isRestRun).map restTotal).sum ∧
    ∀ meter track, Score.read meter score = .ok track →
      track.ticks = meter.ticksPerUnit * (((ofScore score).map Piece.duration).sum +
        (((split score).filter fun piece => !isRestRun piece).map restTotal).sum) := by
  have hrows := sum_durations fun piece (hpiece : piece ∈ split score) => trim_of_mem_split hpiece
  have hrests := sum_restTotal (split score)
  rw [letters_split, soundTotal_letters] at hrows
  rw [letters_split, restTotal_letters] at hrests
  refine ⟨hrows, fun meter track hread => ?_⟩
  have hunits : Score.letterSum score = ((ofScore score).map Piece.duration).sum +
      (((split score).filter fun piece => !isRestRun piece).map restTotal).sum := by
    show _ = (((split score).map ofText).map Piece.duration).sum + _
    rw [letterSum_eq, hrows]
    omega
  rw [Score.ticks_read hread, hunits, Nat.mul_comm]

/-- The rests inside the first unit and inside the group are heard, and no row shows them. -/
theorem rows_and_track_hidden_rests :
    let score := "(c)[KT], U; 5<(e)[M],(g)[MV]>".toList
    ∃ track, Score.read ⟨30, 720⟩ score = .ok track ∧
      ((ofScore score).map Piece.duration).sum = 64 ∧
      track.ticks = 30 * (64 + (32 + 8)) := by
  intro score
  have hdurations : ((ofScore score).map Piece.duration).sum = 64 := by decide
  have hhidden :
      (((split score).filter fun piece => !isRestRun piece).map restTotal).sum = 32 + 8 := by decide
  have hok : (Score.read ⟨30, 720⟩ score).toOption.isSome = true := by decide +kernel
  cases hread : Score.read ⟨30, 720⟩ score with
  | error fault =>
    rw [hread] at hok
    cases hok
  | ok track =>
    have hticks := (rows_and_track score).2 ⟨30, 720⟩ track hread
    rw [hdurations, hhidden] at hticks
    exact ⟨track, rfl, hdurations, hticks⟩

end Piece

end RhythmTiles
