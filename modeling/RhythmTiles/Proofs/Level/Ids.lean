import RhythmTiles.Proofs.Level.Checks
import RhythmTiles.Proofs.Tile.Sections

/-!
# The ids of sections

An id is read as a double before it becomes a whole number, so a section gets a number nearest to what
is written (`Level.readId_spec`). Main theorem: it is the number itself just when that is a double or the
greatest number of a word, so always up to `2 ^ 53`, and ids stay in order (`Level.ids_ofText`). But
different ids can become the same (`Level.ids_ofText_collide`).
-/

namespace RhythmTiles

/-! ## What is written -/

def Json.whole? : Json → Option Int
  | int n => some n
  | float x => Binary64.whole? x
  | _ => none

/-- The whole number that is the id of an entry. -/
def LevelDocument.writtenId? (document : LevelDocument) (i : Nat) : Option Int :=
  match document.musics with
  | some (.array entries) =>
    match entries[i]? with
    | some (.object members) => (Json.member? members "id").bind Json.whole?
    | _ => none
  | _ => none

/-- The text gives a section a number of a signed word as its id. -/
structure LevelDocument.WritesId (text : String) (i : Nat) (n : Int) : Prop where
  written : (ofText? text.toList).bind (·.writtenId? i) = some n
  low : -2 ^ 63 ≤ n
  high : n < 2 ^ 63

theorem LevelDocument.writtenId?_eq_some {document : LevelDocument} {i : Nat} {n : Int} :
    document.writtenId? i = some n ↔ ∃ entries members value,
      document.musics = some (.array entries) ∧ entries[i]? = some (.object members) ∧
      Json.member? members "id" = some value ∧ value.whole? = some n := by
  constructor
  · intro h
    unfold writtenId? at h
    split at h
    · split at h
      · obtain ⟨value, hvalue, hn⟩ := Option.bind_eq_some_iff.1 h
        exact ⟨_, _, value, ‹_›, ‹_›, hvalue, hn⟩
      · cases h
    · cases h
  · rintro ⟨entries, members, value, hmusics, hentry, hvalue, hn⟩
    simp [writtenId?, hmusics, hentry, hvalue, hn]

/-! ## What is read -/

/-- What a whole number becomes as an id: a nearest double, brought into a signed word. -/
structure IsIdOf (n id : Int) : Prop where
  nearest : ∃ k : Int, Binary64.Nearest n k ∧ Binary64.Grid k ∧ id = clampInt64 k
  eq_iff : id = n ↔ Binary64.Grid n ∨ n = 2 ^ 63 - 1

namespace IsIdOf

variable {n n' id id' : Int}

theorem eq_of_small (h : IsIdOf n id) (hn : |n| ≤ 2 ^ 53) : id = n :=
  h.eq_iff.2 (Or.inl (Binary64.grid_intCast hn))

theorem le (h : IsIdOf n id) (h' : IsIdOf n' id') (hlt : n < n') : id ≤ id' := by
  obtain ⟨k, hk, hgrid, rfl⟩ := h.nearest
  obtain ⟨k', hk', hgrid', rfl⟩ := h'.nearest
  have hle : k ≤ k' := by
    have := hk.mono hgrid hk' hgrid' (by exact_mod_cast hlt)
    exact_mod_cast this
  unfold clampInt64
  omega

end IsIdOf

namespace Level

theorem readId_spec {value : Json} {n : Int} (h : value.whole? = some n) (hlow : -2 ^ 63 ≤ n)
    (hhigh : n < 2 ^ 63) (i : Nat) : ∃ id, readId i (some value) = .ok id ∧ IsIdOf n id := by
  cases value with
  | int m =>
    obtain rfl : m = n := Option.some.inj h
    obtain ⟨k, hk, hnearest, hiff⟩ := Binary64.exists_whole?_ofInt hlow hhigh
    have hgrid := Binary64.grid_of_value (Binary64.whole?_eq_some.1 hk)
    refine ⟨clampInt64 k, ?_, ⟨k, hnearest, hgrid, rfl⟩, hiff⟩
    simp [readId, Json.toFloat?, hk]
  | float x =>
    have hx : Binary64.whole? x = some n := h
    have hgrid := Binary64.grid_of_value (Binary64.whole?_eq_some.1 hx)
    have hkept : clampInt64 n = n := by
      unfold clampInt64
      omega
    refine ⟨clampInt64 n, ?_, ⟨n, Binary64.nearest_self _, hgrid, rfl⟩, by simp [hkept, hgrid]⟩
    simp [readId, Json.toFloat?, hx]
  | null | bool | string | array | object => cases h

theorem getElem?_readMusics {i k : Nat} {entries : List Json} {musics : List Music} {entry : Json}
    (h : readMusics i entries = .ok musics) (hentry : entries[k]? = some entry) :
    ∃ m, musics[k]? = some m ∧ readMusic (i + k) entry = .ok m := by
  induction entries generalizing i k musics with
  | nil => cases hentry
  | cons first entries ih =>
    obtain ⟨m, hm, h⟩ := Outcome.bind_eq_ok.1 h
    obtain ⟨rest, hrest, h⟩ := Outcome.bind_eq_ok.1 h
    cases h
    cases k with
    | zero =>
      cases hentry
      exact ⟨m, rfl, hm⟩
    | succ k =>
      obtain ⟨m', hm', hread⟩ := ih hrest hentry
      exact ⟨m', hm', by rwa [Nat.add_assoc, Nat.add_comm 1] at hread⟩

theorem readId_of_readMusic {i : Nat} {members : List (String × Json)} {m : Music}
    (h : readMusic i (.object members) = .ok m) :
    readId i (Json.member? members "id") = .ok m.id := by
  rw [readMusic_object] at h
  obtain ⟨id, hid, h⟩ := Outcome.bind_eq_ok.1 h
  obtain ⟨bpm, -, h⟩ := Outcome.bind_eq_ok.1 h
  obtain ⟨baseBeats, -, h⟩ := Outcome.bind_eq_ok.1 h
  obtain ⟨scores, -, h⟩ := Outcome.bind_eq_ok.1 h
  cases h
  exact hid

theorem readSections_of_ofDocument {document : LevelDocument} {level : Level}
    (h : ofDocument document = .ok level) : readSections document.musics = .ok level.musics := by
  rw [ofDocument_eq] at h
  obtain ⟨baseBpm, -, h⟩ := Outcome.bind_eq_ok.1 h
  obtain ⟨musics, hmusics, h⟩ := Outcome.bind_eq_ok.1 h
  cases h
  exact hmusics

theorem ofText_eq_ok {text : String} {level : Level} :
    ofText text = .ok level ↔
      ∃ document, LevelDocument.ofText? text.toList = some document ∧ ofDocument document = .ok level := by
  unfold ofText
  cases LevelDocument.ofText? text.toList with
  | none => simp
  | some document => simp [Outcome.mapError_eq_ok]

theorem exists_music_of_writesId {text : String} {level : Level} {i : Nat} {n : Int}
    (hlevel : ofText text = .ok level) (h : LevelDocument.WritesId text i n) :
    ∃ m, level.musics[i]? = some m ∧ IsIdOf n m.id := by
  obtain ⟨document, hdocument, hread⟩ := ofText_eq_ok.1 hlevel
  have hwritten := h.written
  rw [hdocument, Option.bind_some] at hwritten
  obtain ⟨entries, members, value, hmusics, hentry, hvalue, hn⟩ :=
    LevelDocument.writtenId?_eq_some.1 hwritten
  have hsections := readSections_of_ofDocument hread
  rw [hmusics] at hsections
  obtain ⟨m, hm, hmusic⟩ := getElem?_readMusics hsections hentry
  obtain ⟨id, hid, hidOf⟩ := readId_spec hn h.low h.high (0 + i)
  have hmember := readId_of_readMusic hmusic
  rw [hvalue, hid] at hmember
  cases hmember
  exact ⟨m, hm, hidOf⟩

theorem ids_sections (level : Level) :
    (Layout.ofLevel level).sections.map Section.id = level.musics.map Music.id := by
  have hids := congrArg (List.map Prod.fst) (Layout.map_sections level)
  rwa [List.map_map, List.map_map] at hids

/-- **What becomes of ids**: a section, also in the layout, has a double nearest to the number that is
written, brought into a signed word. It is the number itself just when that is a double or the greatest
of the word, so always up to `2 ^ 53`, and ids never change their order. -/
theorem ids_ofText {text : String} {level : Level} (hlevel : ofText text = .ok level) :
    (Layout.ofLevel level).sections.map Section.id = level.musics.map Music.id ∧
    (∀ i n, LevelDocument.WritesId text i n → ∃ m, level.musics[i]? = some m ∧ IsIdOf n m.id ∧
      (|n| ≤ 2 ^ 53 → m.id = n)) ∧
    ∀ i j n n', LevelDocument.WritesId text i n → LevelDocument.WritesId text j n' → n < n' →
      ∃ m m', level.musics[i]? = some m ∧ level.musics[j]? = some m' ∧ m.id ≤ m'.id := by
  refine ⟨ids_sections level, ?_, ?_⟩
  · intro i n h
    obtain ⟨m, hm, hid⟩ := exists_music_of_writesId hlevel h
    exact ⟨m, hm, hid, hid.eq_of_small⟩
  · intro i j n n' h h' hlt
    obtain ⟨m, hm, hid⟩ := exists_music_of_writesId hlevel h
    obtain ⟨m', hm', hid'⟩ := exists_music_of_writesId hlevel h'
    exact ⟨m, m', hm, hm', hid.le hid' hlt⟩

/-- The text of a level with two sections, which have the ids that are written. -/
def textWithIds (first second : String) : String :=
  "\x7b\"baseBpm\": 60, \"musics\": [" ++
    "\x7b\"id\": " ++ first ++ ", \"baseBeats\": 1, \"scores\": []\x7d, " ++
    "\x7b\"id\": " ++ second ++ ", \"baseBeats\": 1, \"scores\": []\x7d]\x7d"

/-- The first two ids that are written in a document, and the ids that are read. -/
def idsOf? (document : LevelDocument) : Option (Int × Int × List Int) := do
  let first ← document.writtenId? 0
  let second ← document.writtenId? 1
  let level ← (ofDocument document).toOption
  pure (first, second, level.musics.map Music.id)

theorem exists_level_of_idsOf? {text : String} {n n' : Int} {ids : List Int}
    (h : (LevelDocument.ofText? text.toList).bind idsOf? = some (n, n', ids))
    (hn : -2 ^ 63 ≤ n ∧ n < 2 ^ 63) (hn' : -2 ^ 63 ≤ n' ∧ n' < 2 ^ 63) :
    ∃ level, ofText text = .ok level ∧ LevelDocument.WritesId text 0 n ∧
      LevelDocument.WritesId text 1 n' ∧ level.musics.map Music.id = ids := by
  obtain ⟨document, hdocument, h⟩ := Option.bind_eq_some_iff.1 h
  obtain ⟨first, hfirst, h⟩ := Option.bind_eq_some_iff.1 h
  obtain ⟨second, hsecond, h⟩ := Option.bind_eq_some_iff.1 h
  obtain ⟨level, hlevel, h⟩ := Option.bind_eq_some_iff.1 h
  cases h
  have hwritten : ∀ {i k}, document.writtenId? i = some k →
      (LevelDocument.ofText? text.toList).bind (·.writtenId? i) = some k := by
    intro i k hk
    rw [hdocument, Option.bind_some, hk]
  refine ⟨level, ofText_eq_ok.2 ⟨document, hdocument, ?_⟩, ⟨hwritten hfirst, hn.1, hn.2⟩,
    ⟨hwritten hsecond, hn'.1, hn'.2⟩, rfl⟩
  cases hread : ofDocument document with
  | error fault => rw [hread] at hlevel; cases hlevel
  | ok read => rw [hread] at hlevel; cases hlevel; rfl

theorem ids_ofText_within_word :
    let text := textWithIds "-7" "9223372036854775807"
    ∃ level m m', ofText text = .ok level ∧ level.musics[0]? = some m ∧ level.musics[1]? = some m' ∧
      m.id = -7 ∧ m'.id = 9223372036854775807 := by
  intro text
  have hids : (LevelDocument.ofText? text.toList).bind idsOf? =
      some (-7, 9223372036854775807, [-7, 9223372036854775807]) := by decide +kernel
  obtain ⟨level, hlevel, hfirst, hsecond, -⟩ := exists_level_of_idsOf? hids (by decide) (by decide)
  obtain ⟨-, hread, -⟩ := ids_ofText hlevel
  obtain ⟨m, hm, -, hsmall⟩ := hread 0 (-7) hfirst
  obtain ⟨m', hm', hid, -⟩ := hread 1 9223372036854775807 hsecond
  exact ⟨level, m, m', hlevel, hm, hm', hsmall (by decide), hid.eq_iff.2 (Or.inr rfl)⟩

/-- **Different ids can become the same.** -/
theorem ids_ofText_collide :
    let text := textWithIds "9007199254740992" "9007199254740993"
    ∃ level, ofText text = .ok level ∧ LevelDocument.WritesId text 0 9007199254740992 ∧
      LevelDocument.WritesId text 1 9007199254740993 ∧
      level.musics.map Music.id = [9007199254740992, 9007199254740992] ∧
      (Layout.ofLevel level).sections.map Section.id = [9007199254740992, 9007199254740992] := by
  intro text
  have hids : (LevelDocument.ofText? text.toList).bind idsOf? =
      some (9007199254740992, 9007199254740993, [9007199254740992, 9007199254740992]) := by
    decide +kernel
  obtain ⟨level, hlevel, hfirst, hsecond, hmusics⟩ :=
    exists_level_of_idsOf? hids (by decide) (by decide)
  exact ⟨level, hlevel, hfirst, hsecond, hmusics, (ids_sections level).trans hmusics⟩

end Level

end RhythmTiles
