import Mathlib.Data.List.Basic
import RhythmTiles.Proofs.Tile.Length
import RhythmTiles.Tile.Window

/-!
# Covered rests

The pieces of a score follow each other, so piece `i` takes the letter units between those of the pieces
before it and those of the pieces up to it (`unitsBefore`, `getElem?_ofPieces`). A rest takes time
(`duration_pos_of_isRest`), so a window overlaps it where it shares a unit with it, or takes no time and
lies strictly inside (`overlaps_iff`). Main theorem: `coveredRests_sounded`.
-/

namespace RhythmTiles

namespace Piece

open Letter

/-- The letter units of the pieces before a place. -/
def unitsBefore (pieces : List Piece) (i : Nat) : Nat := ((pieces.take i).map Piece.duration).sum

/-- Piece `i` takes a letter unit. -/
def Takes (pieces : List Piece) (i unit : Nat) : Prop :=
  unitsBefore pieces i ≤ unit ∧ unit < unitsBefore pieces (i + 1)

/-- A piece of a score that is no rest shares a unit with piece `i`, or takes no time and lies strictly
inside piece `i`. -/
def SoundsIn (pieces : List Piece) (i : Nat) (score : List Char) : Prop :=
  ∃ j note, (ofScore score)[j]? = some note ∧ note.isRest = false ∧
    ((∃ unit, Takes pieces i unit ∧ Takes (ofScore score) j unit) ∨
      note.duration = 0 ∧ unitsBefore pieces i < unitsBefore (ofScore score) j ∧
        unitsBefore (ofScore score) j < unitsBefore pieces (i + 1))

theorem unitsBefore_succ {pieces : List Piece} {i : Nat} {p : Piece} (h : pieces[i]? = some p) :
    unitsBefore pieces (i + 1) = unitsBefore pieces i + p.duration := by
  simp [unitsBefore, List.take_add_one, h]

/-! ## Rests -/

/-- A piece is a rest where it is made of rest letters only. -/
theorem isRest_ofText (text : List Char) : (ofText text).isRest = isRestRun (Text.trim text) := by
  cases hgroup : group? (Text.trim text) with
  | some group =>
    obtain ⟨digit, content⟩ := group
    rw [ofText_of_group hgroup, (letters_of_group hgroup).2]
    by_cases hfive : digit = '5' <;> simp [isRest, hfive]
  | none =>
    rw [ofText_of_not_group hgroup]
    by_cases hrest : isRestRun (Text.trim text) = true <;> simp [isRest, hrest]

/-- **A rest takes time.** -/
theorem duration_pos_of_isRest {score : List Char} {p : Piece} (hp : p ∈ ofScore score)
    (h : p.isRest = true) : 0 < p.duration := by
  obtain ⟨text, htext, rfl⟩ := List.mem_map.1 hp
  have htrim := trim_of_mem_split htext
  rw [isRest_ofText, htrim] at h
  rw [duration_ofText htrim, if_pos h, ← letterSum_eq, Nat.pos_iff_ne_zero, ne_eq,
    Score.letterSum_eq_zero, not_not]
  obtain ⟨hne, hall⟩ := Bool.and_eq_true_iff.1 h
  obtain ⟨c, rest, rfl⟩ : ∃ c rest, text = c :: rest := List.exists_cons_of_ne_nil (by simpa using hne)
  have hrest : Letter.isRest c = true := List.all_eq_true.1 hall c List.mem_cons_self
  refine ⟨c, List.mem_cons_self, ?_⟩
  rw [isLength_eq_isSome, hrest, Bool.or_true]

end Piece

namespace PieceWindow

open Piece

/-! ## Windows -/

/-- The window of piece `i`, which is `p`. -/
def window (pieces : List Piece) (i : Nat) (p : Piece) : PieceWindow :=
  ⟨unitsBefore pieces i, unitsBefore pieces (i + 1), i, p.isRest⟩

theorem getElem?_follow (time index : Nat) (pieces : List Piece) (k : Nat) :
    (follow time index pieces)[k]? = pieces[k]?.map fun p =>
      ⟨time + unitsBefore pieces k, time + unitsBefore pieces (k + 1), index + k, p.isRest⟩ := by
  induction pieces generalizing time index k with
  | nil => rfl
  | cons p pieces ih =>
    cases k with
    | zero => simp [follow, unitsBefore]
    | succ k => simp [follow, ih, unitsBefore, Nat.add_assoc, Nat.add_comm 1 k]

/-- **The windows of the pieces follow each other.** -/
theorem getElem?_ofPieces (pieces : List Piece) (k : Nat) :
    (ofPieces pieces)[k]? = pieces[k]?.map (window pieces k) := by
  rw [ofPieces, getElem?_follow]
  simp only [Nat.zero_add]
  rfl

theorem mem_ofPieces {pieces : List Piece} {w : PieceWindow} :
    w ∈ ofPieces pieces ↔ ∃ i p, pieces[i]? = some p ∧ window pieces i p = w := by
  simp [List.mem_iff_getElem?, getElem?_ofPieces]

theorem map_index_follow (time index : Nat) (pieces : List Piece) :
    (follow time index pieces).map PieceWindow.index = List.range' index pieces.length := by
  induction pieces generalizing time index with
  | nil => rfl
  | cons p pieces ih => simp [follow, ih, List.range']

theorem mem_sounding {score : List Char} {w : PieceWindow} :
    w ∈ sounding score ↔ ∃ j note, (ofScore score)[j]? = some note ∧ note.isRest = false ∧
      window (ofScore score) j note = w := by
  rw [sounding, List.mem_filter, mem_ofPieces]
  constructor
  · rintro ⟨⟨j, note, hnote, rfl⟩, hsounds⟩
    exact ⟨j, note, hnote, by simpa [window] using hsounds, rfl⟩
  · rintro ⟨j, note, hnote, hsounds, rfl⟩
    exact ⟨⟨j, note, hnote, rfl⟩, by simpa [window] using hsounds⟩

/-! ## Overlaps -/

/-- What it takes to overlap a window that is not empty. -/
theorem overlaps_iff {v w : PieceWindow} (hv : v.start ≤ v.stop) (hw : w.start < w.stop) :
    v.overlaps w = true ↔
      (∃ unit, (w.start ≤ unit ∧ unit < w.stop) ∧ v.start ≤ unit ∧ unit < v.stop) ∨
        v.start = v.stop ∧ w.start < v.start ∧ v.start < w.stop := by
  simp only [overlaps, Bool.and_eq_true, decide_eq_true_eq]
  constructor
  · rintro ⟨hstart, hstop⟩
    by_cases hempty : v.start = v.stop
    · right
      omega
    · left
      exact ⟨max v.start w.start, by omega, by omega⟩
  · rintro (⟨unit, hin, hunit⟩ | ⟨hempty, hbehind, hbefore⟩) <;> omega

/-- A note overlaps a rest where it sounds in it. -/
theorem exists_overlaps_iff {first score : List Char} {i : Nat} {rest : Piece}
    (h : (ofScore first)[i]? = some rest) (hrest : rest.isRest = true) :
    (∃ note ∈ sounding score, note.overlaps (window (ofScore first) i rest) = true) ↔
      SoundsIn (ofScore first) i score := by
  have hpos := duration_pos_of_isRest (List.mem_of_getElem? h) hrest
  have hwindow : (window (ofScore first) i rest).start < (window (ofScore first) i rest).stop := by
    simp only [window, unitsBefore_succ h]
    omega
  constructor
  · rintro ⟨w, hw, hoverlaps⟩
    obtain ⟨j, note, hnote, hsounds, rfl⟩ := mem_sounding.1 hw
    have hstop := unitsBefore_succ hnote
    rw [overlaps_iff (by simp [window, hstop]) hwindow] at hoverlaps
    refine ⟨j, note, hnote, hsounds, hoverlaps.imp_right ?_⟩
    rintro ⟨hempty, hinside⟩
    simp only [window, hstop] at hempty
    exact ⟨by omega, hinside⟩
  · rintro ⟨j, note, hnote, hsounds, hshares⟩
    have hstop := unitsBefore_succ hnote
    refine ⟨window (ofScore score) j note, mem_sounding.2 ⟨j, note, hnote, hsounds, rfl⟩, ?_⟩
    rw [overlaps_iff (by simp [window, hstop]) hwindow]
    refine hshares.imp_right ?_
    rintro ⟨hempty, hinside⟩
    exact ⟨by simp [window, hstop, hempty], hinside⟩

/-! ## Covered rests -/

/-- **A rest is covered where a note of another score sounds in it.** -/
theorem mem_coveredRests {first : List Char} {others : List (List Char)} {i : Nat} :
    i ∈ coveredRests (ofScore first) others ↔ ∃ rest, (ofScore first)[i]? = some rest ∧
      rest.isRest = true ∧ ∃ score ∈ others, SoundsIn (ofScore first) i score := by
  simp only [coveredRests, List.mem_map, List.mem_filter, mem_ofPieces, List.any_eq_true,
    List.mem_flatMap]
  constructor
  · rintro ⟨w, ⟨⟨⟨j, rest, hrest, rfl⟩, hsilent⟩, note, ⟨score, hscore, hnote⟩, hoverlaps⟩, rfl⟩
    exact ⟨rest, hrest, hsilent, score, hscore,
      (exists_overlaps_iff hrest hsilent).1 ⟨note, hnote, hoverlaps⟩⟩
  · rintro ⟨rest, hrest, hsilent, score, hscore, hsounds⟩
    obtain ⟨note, hnote, hoverlaps⟩ := (exists_overlaps_iff hrest hsilent).2 hsounds
    exact ⟨window (ofScore first) i rest,
      ⟨⟨⟨i, rest, hrest, rfl⟩, hsilent⟩, note, ⟨score, hscore, hnote⟩, hoverlaps⟩, rfl⟩

/-- More scores leave no rest uncovered. -/
theorem coveredRests_sublist (first : List Piece) {others others' : List (List Char)}
    (h : others ⊆ others') : (coveredRests first others).Sublist (coveredRests first others') := by
  apply List.Sublist.map
  apply List.monotone_filter_right
  intro rest hrest
  obtain ⟨note, hnote, hoverlaps⟩ := List.any_eq_true.1 hrest
  obtain ⟨score, hscore, hnote⟩ := List.mem_flatMap.1 hnote
  exact List.any_eq_true.2 ⟨note, List.mem_flatMap.2 ⟨score, h hscore, hnote⟩, hoverlaps⟩

theorem pairwise_coveredRests (first : List Piece) (others : List (List Char)) :
    (coveredRests first others).Pairwise (· < ·) := by
  have hsub : (coveredRests first others).Sublist (List.range' 0 first.length) := by
    rw [← map_index_follow 0]
    exact (List.filter_sublist.trans List.filter_sublist).map PieceWindow.index
  exact (List.pairwise_lt_range' ..).sublist hsub

/-- **The covered rests are those in which a note of another score sounds**: it shares a unit with the
rest, or takes no time and lies strictly inside. They come in order, each once, whatever the order of
the other scores and however often one is given, and more scores cover no fewer. -/
theorem coveredRests_sounded (first : List Char) (others : List (List Char)) :
    (∀ i, i ∈ coveredRests (ofScore first) others ↔ ∃ rest, (ofScore first)[i]? = some rest ∧
      rest.isRest = true ∧ ∃ score ∈ others, SoundsIn (ofScore first) i score) ∧
    (coveredRests (ofScore first) others).Pairwise (· < ·) ∧
    (∀ others', (∀ score, score ∈ others' ↔ score ∈ others) →
      coveredRests (ofScore first) others' = coveredRests (ofScore first) others) ∧
    ∀ others', others ⊆ others' →
      coveredRests (ofScore first) others ⊆ coveredRests (ofScore first) others' := by
  refine ⟨fun i => mem_coveredRests, pairwise_coveredRests _ others, ?_, ?_⟩
  · intro others' hsame
    have hsub : others ⊆ others' := fun score hscore => (hsame score).2 hscore
    have hsub' : others' ⊆ others := fun score hscore => (hsame score).1 hscore
    exact (coveredRests_sublist _ hsub').antisymm (coveredRests_sublist _ hsub)
  · intro others' hsub
    exact (coveredRests_sublist _ hsub).subset

/-- A group without letters takes no time: it covers the rest around it, and not the rest it stands
before. -/
theorem coveredRests_sounded_empty_group :
    let first := "(c)[K],S,T,U".toList
    let empty := "S,5<>,T,5<>".toList
    let late := "R,(e)[P]".toList
    coveredRests (ofScore first) [empty, late] = [1, 3] ∧
      SoundsIn (ofScore first) 1 empty ∧
      (∀ score, score ∈ [late, empty, late] ↔ score ∈ [empty, late]) ∧
      coveredRests (ofScore first) [late, empty, late] = [1, 3] ∧
      [empty] ⊆ [empty, late] ∧
      coveredRests (ofScore first) [empty] ⊆ coveredRests (ofScore first) [empty, late] := by
  intro first empty late
  have hcovered : coveredRests (ofScore first) [empty, late] = [1, 3] := by decide +kernel
  have hone : 1 ∈ coveredRests (ofScore first) [empty] := by decide +kernel
  have hsame : ∀ score, score ∈ [late, empty, late] ↔ score ∈ [empty, late] := by
    intro score
    simp only [List.mem_cons, List.not_mem_nil, or_false]
    tauto
  obtain ⟨-, -, horder, -⟩ := coveredRests_sounded first [empty, late]
  obtain ⟨hsounds, -, -, hmore⟩ := coveredRests_sounded first [empty]
  obtain ⟨-, -, -, score, hscore, hinside⟩ := (hsounds 1).1 hone
  rw [List.mem_singleton] at hscore
  rw [hscore] at hinside
  exact ⟨hcovered, hinside, hsame, (horder _ hsame).trans hcovered, List.subset_append_left _ [late],
    hmore [empty, late] (List.subset_append_left _ [late])⟩

end PieceWindow

end RhythmTiles
