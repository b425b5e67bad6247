import RhythmTiles.Proofs.Level.Checks

/-!
# What decides whether a level document is accepted

Texts are left out of a document by emptying its score strings and dropping its audition. Reading a
document without texts gives what the document itself gives, without texts
(`Level.ofDocument_withoutTexts`). Main theorem: a document is accepted just when it is well-formed,
refused for its first violation, and neither depends on its texts (`Level.ofDocument_decides`).
-/

namespace RhythmTiles

/-! ## Leaving texts out -/

namespace Json

def emptyString : Json → Json
  | string _ => string ""
  | value => value

def emptyStrings : Json → Json
  | array items => array (items.map emptyString)
  | value => value

/-- The member without the texts of its scores, if these are what it holds. -/
def emptyScores (key : String) (value : Json) : Json :=
  if key = "scores" then value.emptyStrings else value

def entryWithoutTexts : Json → Json
  | object members => object (members.map fun m => (m.1, emptyScores m.1 m.2))
  | value => value

def sectionsWithoutTexts : Json → Json
  | array entries => array (entries.map entryWithoutTexts)
  | value => value

end Json

/-- The document without the texts of its scores, and without its audition. -/
def LevelDocument.withoutTexts (document : LevelDocument) : LevelDocument where
  baseBpm := document.baseBpm
  musics := document.musics.map Json.sectionsWithoutTexts
  audition := none

def Music.withoutTexts (m : Music) : Music := { m with scores := m.scores.map fun _ => "" }

def Level.withoutTexts (level : Level) : Level where
  baseBpm := level.baseBpm
  musics := level.musics.map Music.withoutTexts
  audition := none

/-! ## Members -/

namespace Json

theorem lookup_map {A B : Type} (f : String → A → B) (members : List (String × A)) (key : String) :
    (members.map fun m => (m.1, f m.1 m.2)).lookup key = (members.lookup key).map (f key) := by
  induction members with
  | nil => rfl
  | cons m members ih =>
    obtain ⟨k, value⟩ := m
    rw [List.map_cons, List.lookup_cons, List.lookup_cons]
    cases hkey : key == k with
    | true =>
      obtain rfl := eq_of_beq hkey
      rfl
    | false => exact ih

theorem emptyScores_eq_null (key : String) {value : Json} :
    emptyScores key value = null ↔ value = null := by
  unfold emptyScores
  split
  · cases value <;> simp [emptyStrings]
  · rfl

theorem member?_emptyScores (members : List (String × Json)) (key : String) :
    member? (members.map fun m => (m.1, emptyScores m.1 m.2)) key =
      (member? members key).map (emptyScores key) := by
  unfold member?
  rw [lookup_map]
  rcases members.lookup key with _ | value
  · rfl
  · rw [Option.map_some]
    by_cases hnull : value = null
    · obtain rfl := hnull
      rw [(emptyScores_eq_null key).2 rfl]
      rfl
    · have hkept : emptyScores key value ≠ null := mt (emptyScores_eq_null key).1 hnull
      split
      · exact absurd (Option.some.inj ‹_›) hkept
      · split
        · exact absurd (Option.some.inj ‹_›) hnull
        · rfl

end Json

/-! ## Reading without texts -/

namespace Level

open Json

theorem readStrings_emptyString (i j : Nat) (items : List Json) :
    readStrings i j (items.map emptyString) =
      List.map (fun _ => "") <$> readStrings i j items := by
  induction items generalizing j with
  | nil => rfl
  | cons item items ih =>
    have hitem : readString i j item.emptyString = (fun _ => "") <$> readString i j item := by
      cases item <;> rfl
    rw [List.map_cons, readStrings_cons, readStrings_cons, hitem, ih (j + 1)]
    simp only [map_bind, bind_map_left]
    rfl

theorem readScores_emptyScores (i : Nat) (value : Option Json) :
    readScores i (value.map (emptyScores "scores")) =
      List.map (fun _ => "") <$> readScores i value := by
  rcases value with _ | _ | _ | _ | _ | _ | items | _
  case some.array => exact readStrings_emptyString i 0 items
  all_goals rfl

theorem readMusic_entryWithoutTexts (i : Nat) (entry : Json) :
    readMusic i entry.entryWithoutTexts = Music.withoutTexts <$> readMusic i entry := by
  cases entry with
  | null | bool | int | float | string | array => rfl
  | object members =>
    have hkept : ∀ key, key ≠ "scores" →
        member? (members.map fun m => (m.1, emptyScores m.1 m.2)) key = member? members key := by
      intro key hkey
      have hsame : emptyScores key = id := funext fun value => if_neg hkey
      rw [member?_emptyScores, hsame, Option.map_id_fun, id]
    rw [entryWithoutTexts, readMusic_object, readMusic_object, hkept "id" (by decide),
      hkept "bpm" (by decide), hkept "baseBeats" (by decide), member?_emptyScores,
      readScores_emptyScores]
    simp only [map_bind, bind_map_left]
    rfl

theorem readMusics_entryWithoutTexts (i : Nat) (entries : List Json) :
    readMusics i (entries.map entryWithoutTexts) =
      List.map Music.withoutTexts <$> readMusics i entries := by
  induction entries generalizing i with
  | nil => rfl
  | cons entry entries ih =>
    rw [List.map_cons, readMusics, readMusics, readMusic_entryWithoutTexts, ih (i + 1)]
    simp only [map_bind, bind_map_left]
    rfl

theorem readSections_sectionsWithoutTexts (musics : Option Json) :
    readSections (musics.map sectionsWithoutTexts) =
      List.map Music.withoutTexts <$> readSections musics := by
  rcases musics with _ | _ | _ | _ | _ | _ | entries | _
  case some.array => exact readMusics_entryWithoutTexts 0 entries
  all_goals rfl

/-- **Reading commutes with leaving texts out.** -/
theorem ofDocument_withoutTexts (document : LevelDocument) :
    ofDocument document.withoutTexts = Level.withoutTexts <$> ofDocument document := by
  rw [ofDocument_eq, ofDocument_eq, LevelDocument.withoutTexts, readSections_sectionsWithoutTexts]
  simp only [map_bind, bind_map_left]
  rfl

/-- **What decides whether a document is accepted**: just that it is well-formed. A document that is not
is refused for its first violation, and texts make no difference to either. -/
theorem ofDocument_decides (document : LevelDocument) :
    ((∃ level, ofDocument document = .ok level) ↔ document.WellFormed) ∧
    (∀ fault, ofDocument document = .error fault ↔ document.Violates fault ∧
      ∀ other, document.Violates other → other = fault ∨ fault.place < other.place) ∧
    ∀ document', document.withoutTexts = document'.withoutTexts →
      Level.withoutTexts <$> ofDocument document = Level.withoutTexts <$> ofDocument document' := by
  have hreports := reports_ofDocument document
  refine ⟨hreports.isOk_iff.trans document.wellFormed_iff.symm, fun _ => hreports.eq_error_iff, ?_⟩
  intro document' hsame
  rw [← ofDocument_withoutTexts, hsame, ofDocument_withoutTexts]

/-- A document with a score, whose second section is at fault in its tempo, its base beats and its
scores. -/
def faultyDocument (score : String) (audition : Option Json) : LevelDocument where
  baseBpm := some (.string " 120 ")
  musics := some (.array [
    .object [("baseBeats", .int 1), ("id", .int 0), ("scores", .array [.string score])],
    .object [("bpm", .int 0), ("id", .int 1), ("scores", .array [.int 1])]])
  audition := audition

theorem ofDocument_decides_three_violations :
    (faultyDocument "(c)[K]" none).withoutTexts = (faultyDocument "?" (some .null)).withoutTexts ∧
    Level.withoutTexts <$> ofDocument (faultyDocument "(c)[K]" none) =
      Level.withoutTexts <$> ofDocument (faultyDocument "?" (some .null)) ∧
    ¬(faultyDocument "(c)[K]" none).WellFormed ∧
    ∃ fault, ofDocument (faultyDocument "(c)[K]" none) = .error fault ∧
      fault.message = "musics[1].bpm must be positive, got 0" ∧
      ∀ other, (faultyDocument "(c)[K]" none).Violates other →
        other = fault ∨ fault.place < other.place := by
  have hsame : (faultyDocument "(c)[K]" none).withoutTexts =
      (faultyDocument "?" (some .null)).withoutTexts := rfl
  obtain ⟨haccepts, hrefuses, htexts⟩ := ofDocument_decides (faultyDocument "(c)[K]" none)
  have hmessage : (Outcome.fault? (ofDocument (faultyDocument "(c)[K]" none))).map
      DocumentFault.message = some "musics[1].bpm must be positive, got 0" := by decide +kernel
  obtain ⟨fault, hfault, hmessage⟩ := Option.map_eq_some_iff.1 hmessage
  have hfails := Outcome.fault?_eq_some.1 hfault
  refine ⟨hsame, htexts _ hsame, ?_, fault, hfails, hmessage, ((hrefuses fault).1 hfails).2⟩
  intro hformed
  obtain ⟨level, hlevel⟩ := haccepts.2 hformed
  rw [hfails] at hlevel
  cases hlevel

end Level

end RhythmTiles
