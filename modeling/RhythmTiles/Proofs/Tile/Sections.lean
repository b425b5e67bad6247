import RhythmTiles.Proofs.Tile.Covered
import RhythmTiles.Tile.Row

/-!
# Rows and their sections

The rows of a level are those of its sections, one after the other (`Layout.rows_ofMusics`), and a section
records where its own are (`Layout.getElem?_sections`). So the sections divide the rows among them
(`Layout.divides_ofLevel`), and what a section shows depends on nothing but its own scores
(`Layout.rowsOf_ofLevel`): each row shows a piece of the first score (`Row.shows_ofPiece`). Main theorem:
`Layout.sections_divide_rows`.
-/

namespace RhythmTiles

open Letter

namespace Piece

/-! ## Kinds of pieces -/

/-- The piece is a group behind a five. -/
def IsFive (piece : List Char) : Prop := ∃ content, piece = '5' :: '<' :: (content ++ ['>'])

/-- Piece `j` of the first score is made of rest letters, and no other score sounds in it. -/
def IsSilent (first : List Char) (others : List (List Char)) (j : Nat) (piece : List Char) : Prop :=
  isRestRun piece = true ∧ ∀ score ∈ others, ¬SoundsIn (ofScore first) j score

theorem isFive_iff {piece : List Char} :
    IsFive piece ↔ ∃ content, group? piece = some ('5', content) := by
  simp [IsFive, group?_eq_some]

theorem kind_eq_empty_iff (p : Piece) : p.kind = .empty ↔ p.isRest = true := by
  simp [isRest]

theorem kind_eq_double_iff {piece : List Char} (h : Text.trim piece = piece) :
    (ofText piece).kind = .double ↔ IsFive piece := by
  rw [isFive_iff]
  cases hgroup : group? piece with
  | some group =>
    obtain ⟨digit, content⟩ := group
    rw [ofText_of_group (h.symm ▸ hgroup)]
    by_cases hdigit : digit = '5' <;> simp [hdigit]
  | none =>
    rw [ofText_of_not_group (h.symm ▸ hgroup)]
    by_cases hrest : isRestRun (Text.trim piece) = true <;> simp [hrest]

end Piece

namespace Row

/-! ## Rows of pieces -/

/-- The row shows piece `j` of the first of some scores: a silent piece is empty, a group behind a five
is double, and anything else is single. -/
structure Shows (row : Row) (first : List Char) (others : List (List Char)) (j : Nat)
    (piece : List Char) : Prop where
  empty_iff : row.kind = .empty ↔ Piece.IsSilent first others j piece
  double_iff : row.kind = .double ↔ Piece.IsFive piece
  single_iff : row.kind = .single ↔ ¬Piece.IsSilent first others j piece ∧ ¬Piece.IsFive piece

theorem heightOf_pos (duration : Nat) (baseBeats : Float) : 1 ≤ heightOf duration baseBeats := by
  unfold heightOf
  split
  · split <;> omega
  · exact Nat.le_refl 1

theorem kind_ofPiece (baseBeats : Float) (covered : Bool) (p : Piece) :
    (ofPiece baseBeats covered p).kind = if p.isRest && covered then .single else p.kind := rfl

/-- **A row shows its piece.** -/
theorem shows_ofPiece {first piece : List Char} {j : Nat} (baseBeats : Float)
    (others : List (List Char)) (h : (Piece.split first)[j]? = some piece) :
    (ofPiece baseBeats ((PieceWindow.coveredRests (Piece.ofScore first) others).contains j)
      (Piece.ofText piece)).Shows first others j piece := by
  have htrim := Piece.trim_of_mem_split (List.mem_of_getElem? h)
  have hpiece : (Piece.ofScore first)[j]? = some (Piece.ofText piece) := by
    simp [Piece.ofScore, h]
  have hrest : (Piece.ofText piece).isRest = isRestRun piece := by
    rw [Piece.isRest_ofText, htrim]
  have hcovered : (PieceWindow.coveredRests (Piece.ofScore first) others).contains j = true ↔
      isRestRun piece = true ∧ ∃ score ∈ others, Piece.SoundsIn (Piece.ofScore first) j score := by
    rw [List.contains_iff_mem, PieceWindow.mem_coveredRests, hpiece, ← hrest]
    simp
  generalize hc : (PieceWindow.coveredRests (Piece.ofScore first) others).contains j = covered
  rw [hc] at hcovered
  -- a rest that is covered is shown as single, so only a silent one is empty
  have hempty : (ofPiece baseBeats covered (Piece.ofText piece)).kind = .empty ↔
      Piece.IsSilent first others j piece := by
    rw [kind_ofPiece]
    by_cases hsingle : ((Piece.ofText piece).isRest && covered) = true
    · obtain ⟨-, score, hscore, hsounds⟩ := hcovered.1 (Bool.and_eq_true_iff.1 hsingle).2
      have hnot : ¬Piece.IsSilent first others j piece := fun hsilent =>
        hsilent.2 score hscore hsounds
      simp [hsingle, hnot]
    · rw [if_neg hsingle, Piece.kind_eq_empty_iff]
      rw [hrest] at hsingle ⊢
      constructor
      · intro hrun
        refine ⟨hrun, fun score hscore hsounds => hsingle ?_⟩
        rw [hrun, hcovered.2 ⟨hrun, score, hscore, hsounds⟩]
        rfl
      · exact fun hsilent => hsilent.1
  have hdouble : (ofPiece baseBeats covered (Piece.ofText piece)).kind = .double ↔
      Piece.IsFive piece := by
    rw [kind_ofPiece, ← Piece.kind_eq_double_iff htrim]
    by_cases hsingle : ((Piece.ofText piece).isRest && covered) = true
    · have hkind := (Piece.kind_eq_empty_iff _).2 (Bool.and_eq_true_iff.1 hsingle).1
      simp [hsingle, hkind]
    · rw [if_neg hsingle]
  refine ⟨hempty, hdouble, ?_⟩
  rw [← hempty, ← hdouble]
  cases (ofPiece baseBeats covered (Piece.ofText piece)).kind <;> simp

theorem ofMusic_nil {m : Music} (h : m.scores = []) : ofMusic m = [] := by
  rw [ofMusic, h]

/-- The rows of a section are those of the pieces of its first score. -/
theorem getElem?_ofMusic {m : Music} {first : String} {others : List String}
    (h : m.scores = first :: others) (j : Nat) :
    (ofMusic m)[j]? = (Piece.split first.toList)[j]?.map fun piece =>
      ofPiece m.baseBeats ((PieceWindow.coveredRests (Piece.ofScore first.toList)
        (others.map String.toList)).contains j) (Piece.ofText piece) := by
  rw [ofMusic, h]
  simp [Piece.ofScore, Function.comp_def]

theorem length_ofMusic {m : Music} {first : String} {others : List String}
    (h : m.scores = first :: others) : (ofMusic m).length = (Piece.split first.toList).length := by
  rw [ofMusic, h]
  simp [Piece.ofScore]

theorem height_pos_of_mem_ofMusic {m : Music} {row : Row} (h : row ∈ ofMusic m) : 1 ≤ row.height := by
  cases hscores : m.scores with
  | nil =>
    rw [ofMusic_nil hscores] at h
    cases h
  | cons first others =>
    obtain ⟨j, hj⟩ := List.mem_iff_getElem?.1 h
    rw [getElem?_ofMusic hscores] at hj
    obtain ⟨piece, -, rfl⟩ := Option.map_eq_some_iff.1 hj
    exact heightOf_pos _ _

end Row

theorem Section.containsRow_iff {R : Type} {s : Section R} {row : Nat} :
    s.containsRow row = true ↔ s.firstRow ≤ row ∧ row < s.endRow := by
  simp [containsRow]

def Level.withScores (level : Level) (k : Nat) (scores : List String) : Level :=
  { level with musics := level.musics.modify k fun m => { m with scores := scores } }

namespace Layout

/-! ## Sections of a level -/

/-- The rows of the first `i` of some sections. -/
def rowsBefore (musics : List Music) (i : Nat) : Nat := ((musics.take i).flatMap Row.ofMusic).length

def rowsOf {R : Type} (layout : Layout R) (i : Nat) : List Row :=
  match layout.sections[i]? with
  | some s => layout.rows.extract s.firstRow s.endRow
  | none => []

/-- The sections divide the rows among them: each starts where the one before ends. -/
structure Divides {R : Type} (layout : Layout R) : Prop where
  first : ∀ s, layout.sections.head? = some s → s.firstRow = 0
  next : ∀ i s s', layout.sections[i]? = some s → layout.sections[i + 1]? = some s' →
    s'.firstRow = s.endRow
  last : ∀ s, layout.sections.getLast? = some s → s.endRow = layout.rows.length
  count : ∀ s ∈ layout.sections, s.firstRow ≤ s.endRow ∧ s.rowCount = s.endRow - s.firstRow
  once : ∀ row < layout.rows.length,
    ∃! i : Nat, ∃ s : Section R, layout.sections[i]? = some s ∧ s.containsRow row = true

variable {baseBpm : Float} {musics : List Music} {m : Music} {i : Nat}

theorem rows_ofMusics (baseBpm : Float) (count : Nat) (musics : List Music) :
    (ofMusics baseBpm count musics).rows = musics.flatMap Row.ofMusic := by
  induction musics generalizing count with
  | nil => rfl
  | cons m musics ih =>
    rw [ofMusics, List.flatMap_cons]
    simp only [ih]

theorem rowsBefore_succ (h : musics[i]? = some m) :
    rowsBefore musics (i + 1) = rowsBefore musics i + (Row.ofMusic m).length := by
  simp [rowsBefore, List.take_add_one, h]

theorem rowsBefore_mono (musics : List Music) : Monotone (rowsBefore musics) := by
  intro i j hle
  exact ((List.take_sublist_take_left hle).flatMap Row.ofMusic).length_le

/-- What a level records of section `i`, which is `m`. -/
def sectionAt (level : Level) (i : Nat) (m : Music) : Section Float :=
  ⟨m.id, m.tilesPerSecond level.baseBpm, rowsBefore level.musics i, rowsBefore level.musics (i + 1),
    (Row.ofMusic m).length⟩

theorem getElem?_sections_ofMusics (baseBpm : Float) (count : Nat) (musics : List Music) (i : Nat) :
    (ofMusics baseBpm count musics).sections[i]? = musics[i]?.map fun m =>
      ⟨m.id, m.tilesPerSecond baseBpm, count + rowsBefore musics i, count + rowsBefore musics (i + 1),
        (Row.ofMusic m).length⟩ := by
  induction musics generalizing count i with
  | nil => rfl
  | cons m musics ih =>
    cases i with
    | zero => simp [ofMusics, rowsBefore]
    | succ i => simp [ofMusics, ih, rowsBefore, Nat.add_assoc]

/-- **Each section records where its rows are.** -/
theorem getElem?_sections (level : Level) (i : Nat) :
    (ofLevel level).sections[i]? = level.musics[i]?.map (sectionAt level i) := by
  rw [ofLevel, getElem?_sections_ofMusics]
  simp only [Nat.zero_add]
  rfl

theorem length_sections (level : Level) : (ofLevel level).sections.length = level.musics.length := by
  have hnone : ∀ i, (ofLevel level).sections.length ≤ i ↔ level.musics.length ≤ i := by
    intro i
    rw [← List.getElem?_eq_none_iff, ← List.getElem?_eq_none_iff, getElem?_sections,
      Option.map_eq_none_iff]
  exact Nat.le_antisymm ((hnone _).2 le_rfl) ((hnone _).1 le_rfl)

theorem rows_ofLevel (level : Level) : (ofLevel level).rows = level.musics.flatMap Row.ofMusic :=
  rows_ofMusics level.baseBpm 0 level.musics

theorem extract_rows (h : musics[i]? = some m) :
    (musics.flatMap Row.ofMusic).extract (rowsBefore musics i) (rowsBefore musics (i + 1)) =
      Row.ofMusic m := by
  obtain ⟨hi, rfl⟩ := List.getElem?_eq_some_iff.1 h
  have hsplit : musics.flatMap Row.ofMusic = (musics.take i).flatMap Row.ofMusic ++
      (Row.ofMusic musics[i] ++ (musics.drop (i + 1)).flatMap Row.ofMusic) := by
    conv_lhs => rw [← List.take_append_drop i musics, List.drop_eq_getElem_cons hi,
      List.flatMap_append, List.flatMap_cons]
  rw [rowsBefore_succ h, List.extract_eq_take_drop, Nat.add_sub_cancel_left, hsplit,
    rowsBefore, List.drop_left, List.take_left' rfl]

/-- **A section has the rows of its own scores.** -/
theorem rowsOf_ofLevel (level : Level) (i : Nat) :
    (ofLevel level).rowsOf i = (level.musics[i]?.map Row.ofMusic).getD [] := by
  rw [rowsOf, getElem?_sections, rows_ofLevel]
  cases h : level.musics[i]? with
  | none => rfl
  | some m => exact extract_rows h

theorem existsUnique_section {row : Nat} (h : row < (musics.flatMap Row.ofMusic).length) :
    ∃! i, i < musics.length ∧ rowsBefore musics i ≤ row ∧ row < rowsBefore musics (i + 1) := by
  have hmono := rowsBefore_mono musics
  have htotal : rowsBefore musics musics.length = (musics.flatMap Row.ofMusic).length := by
    rw [rowsBefore, List.take_length]
  -- the first place at which all rows up to this one are there is behind the section
  obtain ⟨n, hn, hleast⟩ : ∃ n, row < rowsBefore musics n ∧ ∀ k < n, ¬row < rowsBefore musics k := by
    have hexists : ∃ n, row < rowsBefore musics n := ⟨musics.length, by omega⟩
    exact ⟨Nat.find hexists, Nat.find_spec hexists, fun k hk => Nat.find_min hexists hk⟩
  obtain ⟨i, rfl⟩ : ∃ i, n = i + 1 := by
    cases n with
    | zero => simp [rowsBefore] at hn
    | succ i => exact ⟨i, rfl⟩
  have hi : ¬row < rowsBefore musics i := hleast i (Nat.lt_succ_self i)
  refine ⟨i, ⟨?_, by omega, hn⟩, ?_⟩
  · by_contra hlarge
    have hle := hmono (not_lt.1 hlarge)
    omega
  · rintro k ⟨-, hstart, hstop⟩
    rcases lt_trichotomy k i with hlt | heq | hlt
    · have hle : rowsBefore musics (k + 1) ≤ rowsBefore musics i := hmono hlt
      omega
    · exact heq
    · have hle : rowsBefore musics (i + 1) ≤ rowsBefore musics k := hmono hlt
      omega

/-- **The sections of a level divide its rows among them.** -/
theorem divides_ofLevel (level : Level) : (ofLevel level).Divides := by
  have hsection : ∀ {i s}, (ofLevel level).sections[i]? = some s →
      ∃ m, level.musics[i]? = some m ∧ sectionAt level i m = s := by
    intro i s hs
    rw [getElem?_sections] at hs
    exact Option.map_eq_some_iff.1 hs
  constructor
  · intro s hs
    rw [List.head?_eq_getElem?] at hs
    obtain ⟨m, -, rfl⟩ := hsection hs
    rfl
  · intro i s s' hs hs'
    obtain ⟨m, -, rfl⟩ := hsection hs
    obtain ⟨m', -, rfl⟩ := hsection hs'
    rfl
  · intro s hs
    rw [List.getLast?_eq_getElem?, length_sections] at hs
    obtain ⟨m, hm, rfl⟩ := hsection hs
    obtain ⟨hlt, -⟩ := List.getElem?_eq_some_iff.1 hm
    have hall : level.musics.length - 1 + 1 = level.musics.length := by omega
    show rowsBefore level.musics (level.musics.length - 1 + 1) = _
    rw [hall, rowsBefore, List.take_length, rows_ofLevel]
  · intro s hs
    obtain ⟨i, hs⟩ := List.mem_iff_getElem?.1 hs
    obtain ⟨m, hm, rfl⟩ := hsection hs
    simp [sectionAt, rowsBefore_succ hm]
  · intro row hrow
    rw [rows_ofLevel] at hrow
    obtain ⟨i, ⟨hi, hstart, hstop⟩, honly⟩ := existsUnique_section hrow
    refine ⟨i, ⟨sectionAt level i level.musics[i], ?_, ?_⟩, ?_⟩
    · rw [getElem?_sections, List.getElem?_eq_getElem hi, Option.map_some]
    · exact Section.containsRow_iff.2 ⟨hstart, hstop⟩
    · rintro k ⟨s, hs, hrow⟩
      obtain ⟨m, hm, rfl⟩ := hsection hs
      obtain ⟨hk, -⟩ := List.getElem?_eq_some_iff.1 hm
      exact honly k ⟨hk, Section.containsRow_iff.1 hrow⟩

theorem map_sections (level : Level) :
    ((ofLevel level).sections.map fun s => (s.id, s.tilesPerSecond)) =
      level.musics.map fun m => (m.id, m.tilesPerSecond level.baseBpm) := by
  apply List.ext_getElem?
  intro i
  rw [List.getElem?_map, List.getElem?_map, getElem?_sections, Option.map_map]
  rfl

theorem height_pos_of_mem_rows {level : Level} {row : Row} (h : row ∈ (ofLevel level).rows) :
    1 ≤ row.height := by
  rw [rows_ofLevel] at h
  obtain ⟨m, -, hrow⟩ := List.mem_flatMap.1 h
  exact Row.height_pos_of_mem_ofMusic hrow

/-- **The sections of a level divide its rows among them**, in the order of the level, and each shows the
pieces of its first score, one row for each. Other scores in one section change the rows of no other. -/
theorem sections_divide_rows (level : Level) :
    ((ofLevel level).sections.map fun s => (s.id, s.tilesPerSecond)) =
      (level.musics.map fun m => (m.id, m.tilesPerSecond level.baseBpm)) ∧
    (ofLevel level).Divides ∧
    (∀ i m, level.musics[i]? = some m → m.scores = [] → (ofLevel level).rowsOf i = []) ∧
    (∀ i m first others, level.musics[i]? = some m → m.scores = first :: others →
      ((ofLevel level).rowsOf i).length = (Piece.split first.toList).length ∧
        ∀ j piece, (Piece.split first.toList)[j]? = some piece →
          ∃ row : Row, ((ofLevel level).rowsOf i)[j]? = some row ∧
            row.Shows first.toList (others.map String.toList) j piece) ∧
    (∀ row ∈ (ofLevel level).rows, 1 ≤ row.height) ∧
    ∀ k scores,
      ((ofLevel (level.withScores k scores)).sections.map fun s => (s.id, s.tilesPerSecond)) =
        ((ofLevel level).sections.map fun s => (s.id, s.tilesPerSecond)) ∧
      ∀ i, i ≠ k → (ofLevel (level.withScores k scores)).rowsOf i = (ofLevel level).rowsOf i := by
  refine ⟨map_sections level, divides_ofLevel level, ?_, ?_, fun row hrow => height_pos_of_mem_rows hrow,
    ?_⟩
  · intro i m hm hscores
    rw [rowsOf_ofLevel, hm, Option.map_some, Option.getD_some, Row.ofMusic_nil hscores]
  · intro i m first others hm hscores
    rw [rowsOf_ofLevel, hm, Option.map_some, Option.getD_some]
    refine ⟨Row.length_ofMusic hscores, fun j piece hpiece => ?_⟩
    rw [Row.getElem?_ofMusic hscores, hpiece]
    exact ⟨_, rfl, Row.shows_ofPiece m.baseBeats _ hpiece⟩
  · intro k scores
    constructor
    · rw [map_sections, map_sections]
      -- names and speeds are not taken from the scores
      apply List.ext_getElem?
      intro i
      simp only [Level.withScores, List.getElem?_map, List.getElem?_modify]
      cases level.musics[i]? with
      | none => rfl
      | some m => by_cases hk : k = i <;> simp [hk, Music.tilesPerSecond, Music.tempo]
    · intro i hi
      rw [rowsOf_ofLevel, rowsOf_ofLevel, Level.withScores, List.getElem?_modify_ne _ _ hi.symm]

/-- A rest in which another score sounds is single, and a section without scores has no rows. -/
theorem sections_divide_rows_three :
    let level : Level := ⟨120, [⟨1, none, 1, ["(c)[K],T,5<(e)[K]>,S", "T,(e)[K],T"]⟩, ⟨2, none, 0.5, []⟩,
      ⟨3, none, 0.5, ["5<(f.a)[L]>;U"]⟩], none⟩
    let first := "(c)[K],T,5<(e)[K]>,S".toList
    let others := ["T,(e)[K],T".toList]
    ((ofLevel level).rowsOf 0).map Row.kind = [.single, .single, .double, .empty] ∧
      ¬Piece.IsSilent first others 1 "T".toList ∧
      Piece.IsFive "5<(e)[K]>".toList ∧
      Piece.IsSilent first others 3 "S".toList ∧
      (ofLevel level).rowsOf 1 = [] ∧
      (ofLevel (level.withScores 0 ["U"])).rowsOf 2 = (ofLevel level).rowsOf 2 := by
  intro level first others
  have hkinds : ((ofLevel level).rowsOf 0).map Row.kind = [.single, .single, .double, .empty] := by
    decide +kernel
  obtain ⟨-, -, hnone, hrows, -, hchanged⟩ := sections_divide_rows level
  obtain ⟨-, hshows⟩ := hrows 0 _ _ _ rfl rfl
  have hshown : ∀ j piece kind, (Piece.split first)[j]? = some piece →
      [TileKind.single, .single, .double, .empty][j]? = some kind →
      ∃ row : Row, row.kind = kind ∧ row.Shows first others j piece := by
    intro j piece kind hpiece hkind
    obtain ⟨row, hrow, hshow⟩ := hshows j piece hpiece
    rw [← hkinds, List.getElem?_map, hrow] at hkind
    exact ⟨row, Option.some.inj hkind, hshow⟩
  obtain ⟨covered, hcovered, hone⟩ := hshown 1 "T".toList .single (by decide +kernel) rfl
  obtain ⟨five, hfive, htwo⟩ := hshown 2 "5<(e)[K]>".toList .double (by decide +kernel) rfl
  obtain ⟨rest, hrest, hthree⟩ := hshown 3 "S".toList .empty (by decide +kernel) rfl
  exact ⟨hkinds, (hone.single_iff.1 hcovered).1, htwo.double_iff.1 hfive, hthree.empty_iff.1 hrest,
    hnone 1 _ rfl rfl, (hchanged 0 ["U"]).2 2 (by decide)⟩

end Layout

end RhythmTiles
