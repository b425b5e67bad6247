import RhythmTiles.Level.Document
import RhythmTiles.Proofs.Binary64.Whole

/-!
# What a level document can violate

What a document must hold is said of its values (`WellFormed`), and so is every way to miss it
(`Violates`). A document can be at fault in many places at once; the places are in an order
(`DocumentFault.place`), and each in words names what it is about (`DocumentFault.message_eq`). Main
theorem: a document is well-formed just when it violates nothing (`LevelDocument.wellFormed_iff`).
-/

namespace RhythmTiles

/-! ## Places -/

/-- A place in a document: a part, a field of it and an item of that. -/
abbrev Place := Nat ×ₗ Nat ×ₗ Nat

def place (part field item : Nat) : Place := toLex (part, toLex (field, item))

@[simp] theorem place_lt_place {a b c a' b' c' : Nat} :
    place a b c < place a' b' c' ↔ a < a' ∨ a = a' ∧ (b < b' ∨ b = b' ∧ c < c') := by
  simp [place, Prod.Lex.toLex_lt_toLex]

def NumberField.place : NumberField → Place
  | baseBpm => RhythmTiles.place 0 0 0
  | bpm i => RhythmTiles.place (i + 2) 2 0
  | baseBeats i => RhythmTiles.place (i + 2) 3 0

/-- The place of a fault: the base tempo, the sections as a whole, then section by section its kind, its
id, its tempo, its base beats and its scores. -/
def DocumentFault.place : DocumentFault → Place
  | unreadable => RhythmTiles.place 0 0 0
  | required field | notPositive field _ | notNumber field _ => field.place
  | musicsRequired | musicsNotArray => RhythmTiles.place 1 0 0
  | musicNotObject i => RhythmTiles.place (i + 2) 0 0
  | idNotNumber i | idNotWhole i _ => RhythmTiles.place (i + 2) 1 0
  | scoresNotArray i => RhythmTiles.place (i + 2) 4 0
  | scoreNotString i j => RhythmTiles.place (i + 2) 4 (j + 1)

/-! ## Words -/

/-- What a fault is about. -/
def DocumentFault.subject : DocumentFault → String
  | unreadable => "the text"
  | required field | notPositive field _ | notNumber field _ => field.label
  | musicsRequired | musicsNotArray => "musics"
  | musicNotObject i => s!"musics[{i}]"
  | idNotNumber i | idNotWhole i _ => s!"musics[{i}].id"
  | scoresNotArray i => s!"musics[{i}].scores"
  | scoreNotString i j => s!"musics[{i}].scores[{j}]"

/-- What a fault says of it. -/
def DocumentFault.predicate : DocumentFault → String
  | unreadable => " is not a level document"
  | required _ | musicsRequired => " is required"
  | notPositive _ x => " must be positive, got " ++ Decimal.floatText .message x
  | notNumber _ value => " must be a number, got " ++ value.compact
  | musicsNotArray | scoresNotArray _ => " must be an array"
  | musicNotObject _ => " must be an object"
  | idNotNumber _ => " must be a number"
  | idNotWhole _ x => " must be an integer, got " ++ Decimal.floatText .message x
  | scoreNotString _ _ => " must be a string"

/-- Every fault names what it is about. -/
theorem DocumentFault.message_eq (fault : DocumentFault) :
    fault.message = fault.subject ++ fault.predicate := by
  -- a message holds the end of the name and what is said of it in one literal
  have hcut (front name said : String) {literal : String} (h : literal = name ++ said) :
      front ++ literal = front ++ name ++ said := by
    rw [h, String.append_assoc]
  cases fault with
  | unreadable | musicsRequired | musicsNotArray => decide +kernel
  | required => rfl
  | notPositive | notNumber => exact String.append_assoc
  | musicNotObject i => exact hcut s!"musics[{i}" "]" " must be an object" (by decide +kernel)
  | idNotNumber i => exact hcut s!"musics[{i}" "].id" " must be a number" (by decide +kernel)
  | idNotWhole i x =>
    have hname : s!"musics[{i}].id must be an integer, got " =
        s!"musics[{i}].id" ++ " must be an integer, got " :=
      hcut s!"musics[{i}" "].id" " must be an integer, got " (by decide +kernel)
    exact (congrArg (· ++ Decimal.floatText .message x) hname).trans String.append_assoc
  | scoresNotArray i =>
    exact hcut s!"musics[{i}" "].scores" " must be an array" (by decide +kernel)
  | scoreNotString i j =>
    exact hcut s!"musics[{i}].scores[{j}" "]" " must be a string" (by decide +kernel)

/-! ## What a document must hold -/

namespace Json

/-- The double that a value is read as: a number's, or that of a string which reads as one when
trimmed. -/
inductive ReadsAs : Json → Float → Prop
  | int (n : Int) : ReadsAs (.int n) (.ofInt n)
  | float (x : Float) : ReadsAs (.float x) x
  | string {s : String} {x : Float} (h : Decimal.floatOfText? (Text.trim s.toList) = some x) :
      ReadsAs (.string s) x

/-- A value that is read as a finite positive number. -/
def IsPositive (value : Json) : Prop :=
  ∃ x q, value.ReadsAs x ∧ Binary64.value? x = some q ∧ 0 < q

end Json

/-- The members that make a section. An absent tempo is the level's. -/
structure IsMusic (members : List (String × Json)) : Prop where
  id : ∃ value x, ∃ n : Int, Json.member? members "id" = some value ∧ value.toFloat? = some x ∧
    Binary64.value? x = some (n : Rat)
  bpm : ∀ value, Json.member? members "bpm" = some value → value.IsPositive
  baseBeats : ∃ value, Json.member? members "baseBeats" = some value ∧ value.IsPositive
  scores : ∃ items, Json.member? members "scores" = some (.array items) ∧
    ∀ item ∈ items, ∃ s, item = .string s

/-- A document that holds a level. -/
structure LevelDocument.WellFormed (document : LevelDocument) : Prop where
  baseBpm : ∃ value, document.baseBpm = some value ∧ value.IsPositive
  musics : ∃ entries, document.musics = some (.array entries) ∧
    ∀ entry ∈ entries, ∃ members, entry = .object members ∧ IsMusic members

/-! ## Violations -/

/-- What is wrong with the value of a field that holds a positive number. -/
inductive Unfit (field : NumberField) (value : Json) : DocumentFault → Prop
  | notNumber (h : ∀ x, ¬value.ReadsAs x) : Unfit field value (.notNumber field value)
  | notPositive {x : Float} (hx : value.ReadsAs x) (h : ∀ q, Binary64.value? x = some q → q ≤ 0) :
      Unfit field value (.notPositive field x)

/-- What is wrong with the members of a section. -/
inductive MusicViolates (i : Nat) (members : List (String × Json)) : DocumentFault → Prop
  | idNotNumber (h : ∀ value x, Json.member? members "id" = some value → value.toFloat? ≠ some x) :
      MusicViolates i members (.idNotNumber i)
  | idNotWhole {value : Json} {x : Float} (hvalue : Json.member? members "id" = some value)
      (hx : value.toFloat? = some x) (h : ∀ n : Int, Binary64.value? x ≠ some (n : Rat)) :
      MusicViolates i members (.idNotWhole i x)
  | bpm {value : Json} {fault : DocumentFault} (hvalue : Json.member? members "bpm" = some value)
      (h : Unfit (.bpm i) value fault) : MusicViolates i members fault
  | noBaseBeats (h : Json.member? members "baseBeats" = none) :
      MusicViolates i members (.required (.baseBeats i))
  | baseBeats {value : Json} {fault : DocumentFault}
      (hvalue : Json.member? members "baseBeats" = some value)
      (h : Unfit (.baseBeats i) value fault) : MusicViolates i members fault
  | scoresNotArray (h : ∀ items, Json.member? members "scores" ≠ some (.array items)) :
      MusicViolates i members (.scoresNotArray i)
  | scoreNotString {items : List Json} {j : Nat} {item : Json}
      (hitems : Json.member? members "scores" = some (.array items)) (hitem : items[j]? = some item)
      (h : ∀ s, item ≠ .string s) : MusicViolates i members (.scoreNotString i j)

inductive LevelDocument.Violates (document : LevelDocument) : DocumentFault → Prop
  | noBaseBpm (h : document.baseBpm = none) : Violates document (.required .baseBpm)
  | baseBpm {value : Json} {fault : DocumentFault} (hvalue : document.baseBpm = some value)
      (h : Unfit .baseBpm value fault) : Violates document fault
  | noMusics (h : document.musics = none) : Violates document .musicsRequired
  | musicsNotArray {value : Json} (hvalue : document.musics = some value)
      (h : ∀ entries, value ≠ .array entries) : Violates document .musicsNotArray
  | musicNotObject {entries : List Json} {i : Nat} {entry : Json}
      (hentries : document.musics = some (.array entries)) (hentry : entries[i]? = some entry)
      (h : ∀ members, entry ≠ .object members) : Violates document (.musicNotObject i)
  | music {entries : List Json} {i : Nat} {members : List (String × Json)} {fault : DocumentFault}
      (hentries : document.musics = some (.array entries))
      (hentry : entries[i]? = some (.object members)) (h : MusicViolates i members fault) :
      Violates document fault

/-! ## Part by part -/

def RequiredViolates (field : NumberField) (value : Option Json) (fault : DocumentFault) : Prop :=
  value = none ∧ fault = .required field ∨ ∃ v, value = some v ∧ Unfit field v fault

def OptionalViolates (field : NumberField) (value : Option Json) (fault : DocumentFault) : Prop :=
  ∃ v, value = some v ∧ Unfit field v fault

def IdViolates (i : Nat) (value : Option Json) (fault : DocumentFault) : Prop :=
  (∀ v x, value = some v → v.toFloat? ≠ some x) ∧ fault = .idNotNumber i ∨
    ∃ v x, value = some v ∧ v.toFloat? = some x ∧ (∀ n : Int, Binary64.value? x ≠ some (n : Rat)) ∧
      fault = .idNotWhole i x

def ScoresViolate (i : Nat) (value : Option Json) (fault : DocumentFault) : Prop :=
  (∀ items, value ≠ some (.array items)) ∧ fault = .scoresNotArray i ∨
    ∃ items j item, value = some (.array items) ∧ items[j]? = some item ∧
      (∀ s, item ≠ .string s) ∧ fault = .scoreNotString i j

def EntryViolates (i : Nat) (entry : Json) (fault : DocumentFault) : Prop :=
  (∀ members, entry ≠ .object members) ∧ fault = .musicNotObject i ∨
    ∃ members, entry = .object members ∧ MusicViolates i members fault

def SectionsViolate (musics : Option Json) (fault : DocumentFault) : Prop :=
  musics = none ∧ fault = .musicsRequired ∨
  (∃ value, musics = some value ∧ ∀ entries, value ≠ .array entries) ∧ fault = .musicsNotArray ∨
  ∃ entries i entry, musics = some (.array entries) ∧ entries[i]? = some entry ∧
    EntryViolates i entry fault

theorem musicViolates_iff {i : Nat} {members : List (String × Json)} {fault : DocumentFault} :
    MusicViolates i members fault ↔
      IdViolates i (Json.member? members "id") fault ∨
      OptionalViolates (.bpm i) (Json.member? members "bpm") fault ∨
      RequiredViolates (.baseBeats i) (Json.member? members "baseBeats") fault ∨
      ScoresViolate i (Json.member? members "scores") fault := by
  constructor
  · intro h
    cases h with
    | idNotNumber h => exact Or.inl (Or.inl ⟨h, rfl⟩)
    | idNotWhole hv hx h => exact Or.inl (Or.inr ⟨_, _, hv, hx, h, rfl⟩)
    | bpm hv h => exact Or.inr (Or.inl ⟨_, hv, h⟩)
    | noBaseBeats h => exact Or.inr (Or.inr (Or.inl (Or.inl ⟨h, rfl⟩)))
    | baseBeats hv h => exact Or.inr (Or.inr (Or.inl (Or.inr ⟨_, hv, h⟩)))
    | scoresNotArray h => exact Or.inr (Or.inr (Or.inr (Or.inl ⟨h, rfl⟩)))
    | scoreNotString hitems hitem h =>
      exact Or.inr (Or.inr (Or.inr (Or.inr ⟨_, _, _, hitems, hitem, h, rfl⟩)))
  · rintro ((⟨h, rfl⟩ | ⟨v, x, hv, hx, h, rfl⟩) | ⟨v, hv, h⟩ | (⟨h, rfl⟩ | ⟨v, hv, h⟩) |
      ⟨h, rfl⟩ | ⟨items, j, item, hitems, hitem, h, rfl⟩)
    · exact .idNotNumber h
    · exact .idNotWhole hv hx h
    · exact .bpm hv h
    · exact .noBaseBeats h
    · exact .baseBeats hv h
    · exact .scoresNotArray h
    · exact .scoreNotString hitems hitem h

theorem LevelDocument.violates_iff {document : LevelDocument} {fault : DocumentFault} :
    document.Violates fault ↔
      RequiredViolates .baseBpm document.baseBpm fault ∨ SectionsViolate document.musics fault := by
  constructor
  · intro h
    cases h with
    | noBaseBpm h => exact Or.inl (Or.inl ⟨h, rfl⟩)
    | baseBpm hv h => exact Or.inl (Or.inr ⟨_, hv, h⟩)
    | noMusics h => exact Or.inr (Or.inl ⟨h, rfl⟩)
    | musicsNotArray hv h => exact Or.inr (Or.inr (Or.inl ⟨⟨_, hv, h⟩, rfl⟩))
    | musicNotObject hm hi h => exact Or.inr (Or.inr (Or.inr ⟨_, _, _, hm, hi, Or.inl ⟨h, rfl⟩⟩))
    | music hm hi h => exact Or.inr (Or.inr (Or.inr ⟨_, _, _, hm, hi, Or.inr ⟨_, rfl, h⟩⟩))
  · rintro ((⟨h, rfl⟩ | ⟨v, hv, h⟩) | ⟨h, rfl⟩ | ⟨⟨v, hv, h⟩, rfl⟩ | ⟨entries, i, entry, hm, hi, h⟩)
    · exact .noBaseBpm h
    · exact .baseBpm hv h
    · exact .noMusics h
    · exact .musicsNotArray hv h
    · rcases h with ⟨h, rfl⟩ | ⟨members, rfl, h⟩
      · exact .musicNotObject hm hi h
      · exact .music hm hi h

/-! ## Without a violation -/

theorem Level.number?_eq_some {value : Json} {x : Float} :
    Level.number? value = some x ↔ value.ReadsAs x := by
  constructor
  · intro h
    cases value with
    | int n =>
      cases h
      exact .int n
    | float y =>
      cases h
      exact .float _
    | string s => exact .string h
    | null | bool | array | object => cases h
  · rintro (_ | _ | h)
    · rfl
    · rfl
    · exact h

theorem Json.ReadsAs.unique {value : Json} {x y : Float} (hx : value.ReadsAs x)
    (hy : value.ReadsAs y) : y = x :=
  Option.some.inj ((Level.number?_eq_some.2 hy).symm.trans (Level.number?_eq_some.2 hx))

theorem Json.isPositive_iff (field : NumberField) (value : Json) :
    value.IsPositive ↔ ∀ fault, ¬Unfit field value fault := by
  constructor
  · rintro ⟨x, q, hx, hq, hpos⟩ fault (hnone | ⟨hreads, hunfit⟩)
    · exact hnone x hx
    · obtain rfl := hx.unique hreads
      exact absurd (hunfit q hq) (not_le.2 hpos)
  · intro h
    by_cases hreads : ∃ x, value.ReadsAs x
    · obtain ⟨x, hx⟩ := hreads
      by_contra hunfit
      refine h _ (.notPositive hx fun q hq => ?_)
      by_contra hpos
      exact hunfit ⟨x, q, hx, hq, not_le.1 hpos⟩
    · exact absurd (.notNumber fun x hx => hreads ⟨x, hx⟩) (h _)

theorem isPositive_of_optional_iff (field : NumberField) (value : Option Json) :
    (∀ v, value = some v → v.IsPositive) ↔ ∀ fault, ¬OptionalViolates field value fault := by
  simp only [OptionalViolates, not_exists, not_and, Json.isPositive_iff field]
  exact ⟨fun h fault v hv => h v hv fault, fun h v hv fault => h fault v hv⟩

theorem isPositive_of_required_iff (field : NumberField) (value : Option Json) :
    (∃ v, value = some v ∧ v.IsPositive) ↔ ∀ fault, ¬RequiredViolates field value fault := by
  cases value with
  | none => simp [RequiredViolates]
  | some value => simp [RequiredViolates, Json.isPositive_iff field]

theorem isWhole_of_id_iff (i : Nat) (value : Option Json) :
    (∃ v x, ∃ n : Int, value = some v ∧ v.toFloat? = some x ∧ Binary64.value? x = some (n : Rat)) ↔
      ∀ fault, ¬IdViolates i value fault := by
  constructor
  · rintro ⟨v, x, n, rfl, hx, hn⟩ fault (⟨hnone, -⟩ | ⟨v', x', hv, hx', hbroken, -⟩)
    · exact hnone v x rfl hx
    · cases hv
      cases hx.symm.trans hx'
      exact hbroken n hn
  · intro h
    by_contra hbroken
    by_cases hnumber : ∃ v x, value = some v ∧ v.toFloat? = some x
    · obtain ⟨v, x, hv, hx⟩ := hnumber
      exact h _ (Or.inr ⟨v, x, hv, hx, fun n hn => hbroken ⟨v, x, n, hv, hx, hn⟩, rfl⟩)
    · exact h _ (Or.inl ⟨fun v x hv hx => hnumber ⟨v, x, hv, hx⟩, rfl⟩)

theorem areStrings_of_scores_iff (i : Nat) (value : Option Json) :
    (∃ items, value = some (.array items) ∧ ∀ item ∈ items, ∃ s, item = .string s) ↔
      ∀ fault, ¬ScoresViolate i value fault := by
  constructor
  · rintro ⟨items, rfl, hstrings⟩ fault (⟨hnone, -⟩ | ⟨items', j, item, hitems, hitem, h, -⟩)
    · exact hnone items rfl
    · cases hitems
      obtain ⟨s, rfl⟩ := hstrings item (List.mem_of_getElem? hitem)
      exact h s rfl
  · intro h
    by_cases harray : ∃ items, value = some (.array items)
    · obtain ⟨items, hitems⟩ := harray
      refine ⟨items, hitems, fun item hitem => ?_⟩
      obtain ⟨j, hj⟩ := List.mem_iff_getElem?.1 hitem
      by_contra hnone
      exact h _ (Or.inr ⟨items, j, item, hitems, hj, fun s hs => hnone ⟨s, hs⟩, rfl⟩)
    · exact absurd (Or.inl ⟨fun items hitems => harray ⟨items, hitems⟩, rfl⟩) (h _)

/-- Members violate nothing just when they make a section. -/
theorem isMusic_iff (i : Nat) (members : List (String × Json)) :
    IsMusic members ↔ ∀ fault, ¬MusicViolates i members fault := by
  simp only [musicViolates_iff, not_or, forall_and]
  rw [← isWhole_of_id_iff, ← isPositive_of_optional_iff, ← isPositive_of_required_iff,
    ← areStrings_of_scores_iff]
  exact ⟨fun h => ⟨h.id, h.bpm, h.baseBeats, h.scores⟩, fun ⟨hid, hbpm, hbeats, hscores⟩ =>
    ⟨hid, hbpm, hbeats, hscores⟩⟩

theorem isMusic_of_entry_iff (i : Nat) (entry : Json) :
    (∃ members, entry = .object members ∧ IsMusic members) ↔ ∀ fault, ¬EntryViolates i entry fault := by
  cases entry with
  | object members => simp [EntryViolates, isMusic_iff i]
  | null | bool | int | float | string | array => simp [EntryViolates]

theorem areMusics_of_sections_iff (musics : Option Json) :
    (∃ entries, musics = some (.array entries) ∧
      ∀ entry ∈ entries, ∃ members, entry = .object members ∧ IsMusic members) ↔
      ∀ fault, ¬SectionsViolate musics fault := by
  rcases musics with _ | _ | _ | _ | _ | _ | entries | _
  case some.array =>
    constructor
    · rintro ⟨_, ⟨⟩, hmusics⟩ fault (⟨h, -⟩ | ⟨⟨value, ⟨⟩, h⟩, -⟩ | ⟨_, i, entry, ⟨⟩, hi, h⟩)
      · cases h
      · exact h entries rfl
      · exact (isMusic_of_entry_iff i entry).1 (hmusics entry (List.mem_of_getElem? hi)) fault h
    · intro h
      refine ⟨entries, rfl, fun entry hentry => ?_⟩
      obtain ⟨i, hi⟩ := List.mem_iff_getElem?.1 hentry
      exact (isMusic_of_entry_iff i entry).2 fun fault hfault =>
        h fault (Or.inr (Or.inr ⟨entries, i, entry, rfl, hi, hfault⟩))
  all_goals simp [SectionsViolate]

/-- **A document violates nothing just when it is well-formed.** -/
theorem LevelDocument.wellFormed_iff (document : LevelDocument) :
    document.WellFormed ↔ ∀ fault, ¬document.Violates fault := by
  simp only [violates_iff, not_or, forall_and]
  rw [← isPositive_of_required_iff, ← areMusics_of_sections_iff]
  exact ⟨fun h => ⟨h.baseBpm, h.musics⟩, fun ⟨hbpm, hmusics⟩ => ⟨hbpm, hmusics⟩⟩

end RhythmTiles
