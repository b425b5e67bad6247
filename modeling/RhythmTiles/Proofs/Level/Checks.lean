import RhythmTiles.Proofs.Level.Violations
import RhythmTiles.Proofs.Outcome

/-!
# The checks of a level document

A check `Reports` its violations when it fails with the first of them. A check and what follows report
all their violations, if those of the check come first (`Reports.bind`); so does the reading of a whole
document (`Level.reports_ofDocument`).
-/

namespace RhythmTiles

/-! ## Where violations lie -/

/-- The fault lies in a field of a section. -/
def DocumentFault.InField (fault : DocumentFault) (i field : Nat) : Prop :=
  ∃ item, fault.place = RhythmTiles.place (i + 2) field item

theorem DocumentFault.InField.lt {fault other : DocumentFault} {i field field' : Nat}
    (h : fault.InField i field) (hother : other.InField i field') (hlt : field < field') :
    fault.place < other.place := by
  obtain ⟨item, hplace⟩ := h
  obtain ⟨item', hplace'⟩ := hother
  rw [hplace, hplace', place_lt_place]
  exact Or.inr ⟨rfl, Or.inl hlt⟩

theorem Unfit.place {field : NumberField} {value : Json} {fault : DocumentFault}
    (h : Unfit field value fault) : fault.place = field.place := by
  cases h <;> rfl

namespace DocumentFault.InField

variable {i : Nat} {value : Option Json} {fault : DocumentFault}

theorem of_id (h : IdViolates i value fault) : fault.InField i 1 := by
  rcases h with ⟨-, rfl⟩ | ⟨_, _, -, -, -, rfl⟩ <;> exact ⟨0, rfl⟩

theorem of_bpm (h : OptionalViolates (.bpm i) value fault) : fault.InField i 2 := by
  obtain ⟨v, -, hv⟩ := h
  exact ⟨0, hv.place⟩

theorem of_baseBeats (h : RequiredViolates (.baseBeats i) value fault) : fault.InField i 3 := by
  rcases h with ⟨-, rfl⟩ | ⟨v, -, hv⟩
  · exact ⟨0, rfl⟩
  · exact ⟨0, hv.place⟩

theorem of_scores (h : ScoresViolate i value fault) : fault.InField i 4 := by
  rcases h with ⟨-, rfl⟩ | ⟨_, j, _, -, -, -, rfl⟩
  · exact ⟨0, rfl⟩
  · exact ⟨j + 1, rfl⟩

theorem of_entry {entry : Json} (h : EntryViolates i entry fault) :
    ∃ field, fault.InField i field := by
  rcases h with ⟨-, rfl⟩ | ⟨members, -, h⟩
  · exact ⟨0, 0, rfl⟩
  · rcases musicViolates_iff.1 h with h | h | h | h
    · exact ⟨1, of_id h⟩
    · exact ⟨2, of_bpm h⟩
    · exact ⟨3, of_baseBeats h⟩
    · exact ⟨4, of_scores h⟩

end DocumentFault.InField

/-- The base tempo comes before the sections. -/
theorem SectionsViolate.lt {musics value : Option Json} {fault other : DocumentFault}
    (h : RequiredViolates .baseBpm value fault) (hother : SectionsViolate musics other) :
    fault.place < other.place := by
  have hplace : fault.place = place 0 0 0 := by
    rcases h with ⟨-, rfl⟩ | ⟨v, -, hv⟩
    · rfl
    · exact hv.place
  rw [hplace]
  rcases hother with ⟨-, rfl⟩ | ⟨-, rfl⟩ | ⟨_, i, _, -, -, h⟩
  · simp [DocumentFault.place]
  · simp [DocumentFault.place]
  · obtain ⟨_, _, hplace'⟩ := DocumentFault.InField.of_entry h
    rw [hplace']
    simp

/-! ## Reports -/

/-- A check fails with its first violation, and gives a result when there is none. -/
structure Reports {A : Type} (check : Except DocumentFault A) (violates : DocumentFault → Prop) :
    Prop where
  ok : ∀ a, check = .ok a → ∀ fault, ¬violates fault
  error : ∀ fault, check = .error fault →
    violates fault ∧ ∀ other, violates other → other = fault ∨ fault.place < other.place

namespace Reports

variable {A B : Type} {check : Except DocumentFault A} {violates later : DocumentFault → Prop}
  {fault : DocumentFault}

theorem of_iff (h : ∀ fault, check = .error fault ↔ violates fault) : Reports check violates where
  ok a ha fault hfault := by
    rw [ha] at h
    cases (h fault).2 hfault
  error fault hfault := by
    refine ⟨(h fault).1 hfault, fun other hother => Or.inl ?_⟩
    rw [hfault] at h
    exact (Except.error.inj ((h other).2 hother)).symm

theorem congr (h : Reports check violates) (hiff : ∀ fault, violates fault ↔ later fault) :
    Reports check later := by
  obtain rfl : violates = later := funext fun fault => propext (hiff fault)
  exact h

theorem pure (a : A) : Reports (.ok a) fun _ => False where
  ok _ _ _ := id
  error _ h := nomatch h

theorem bind {next : A → Except DocumentFault B} (h : Reports check violates)
    (hnext : ∀ a, Reports (next a) later)
    (hbefore : ∀ fault other, violates fault → later other → fault.place < other.place) :
    Reports (check >>= next) fun fault => violates fault ∨ later fault where
  ok b hb fault := by
    obtain ⟨a, ha, hb⟩ := Outcome.bind_eq_ok.1 hb
    exact not_or.2 ⟨h.ok a ha fault, (hnext a).ok b hb fault⟩
  error fault hfault := by
    rcases Outcome.bind_eq_error.1 hfault with hfault | ⟨a, ha, hfault⟩
    · obtain ⟨hviolates, hfirst⟩ := h.error fault hfault
      refine ⟨Or.inl hviolates, ?_⟩
      rintro other (hother | hother)
      · exact hfirst other hother
      · exact Or.inr (hbefore fault other hviolates hother)
    · obtain ⟨hviolates, hfirst⟩ := (hnext a).error fault hfault
      refine ⟨Or.inr hviolates, ?_⟩
      rintro other (hother | hother)
      · exact absurd hother (h.ok a ha other)
      · exact hfirst other hother

/-- A check whose result is used only to build another one. -/
theorem bind_pure {f : A → B} (h : Reports check violates) :
    Reports (check >>= fun a => .ok (f a)) violates :=
  (h.bind (fun a => pure (f a)) fun _ _ _ hfalse => hfalse.elim).congr fun _ => or_iff_left id

/-- A check gives a result just when nothing is violated. -/
theorem isOk_iff (h : Reports check violates) :
    (∃ a, check = .ok a) ↔ ∀ fault, ¬violates fault := by
  constructor
  · rintro ⟨a, ha⟩
    exact h.ok a ha
  · intro hnone
    cases hcheck : check with
    | ok a => exact ⟨a, rfl⟩
    | error fault => exact absurd (h.error fault hcheck).1 (hnone fault)

/-- A check fails just with its first violation. -/
theorem eq_error_iff (h : Reports check violates) :
    check = .error fault ↔
      violates fault ∧ ∀ other, violates other → other = fault ∨ fault.place < other.place := by
  refine ⟨h.error fault, ?_⟩
  rintro ⟨hviolates, hfirst⟩
  cases hcheck : check with
  | ok a => exact absurd hviolates (h.ok a hcheck fault)
  | error other =>
    obtain ⟨hother, hfirst'⟩ := h.error other hcheck
    rcases hfirst other hother with rfl | hlt
    · rfl
    · rcases hfirst' fault hviolates with rfl | hgt
      · rfl
      · exact absurd hlt hgt.asymm

end Reports

namespace Level

open DocumentFault (InField)

/-! ## Numbers -/

theorem unfit_iff_of_none {field : NumberField} {value : Json} {fault : DocumentFault}
    (h : number? value = none) : Unfit field value fault ↔ fault = .notNumber field value := by
  have hnone : ∀ x, ¬value.ReadsAs x := by
    intro x hreads
    rw [number?_eq_some.2 hreads] at h
    cases h
  constructor
  · rintro (_ | ⟨hreads, -⟩)
    · rfl
    · exact absurd hreads (hnone _)
  · rintro rfl
    exact .notNumber hnone

theorem unfit_iff_of_some {field : NumberField} {value : Json} {fault : DocumentFault} {x : Float}
    (h : number? value = some x) :
    Unfit field value fault ↔ ¬(x.isFinite = true ∧ 0 < x) ∧ fault = .notPositive field x := by
  have hreads := number?_eq_some.1 h
  have hunfit : ¬(x.isFinite = true ∧ 0 < x) ↔ ∀ q, Binary64.value? x = some q → q ≤ 0 := by
    rw [Binary64.isFinite_and_pos_iff]
    push Not
    rfl
  rw [hunfit]
  constructor
  · rintro (hnone | ⟨hreads', hpos⟩)
    · exact absurd hreads (hnone x)
    · obtain rfl := hreads.unique hreads'
      exact ⟨hpos, rfl⟩
  · rintro ⟨hpos, rfl⟩
    exact .notPositive hreads hpos

theorem reports_positive (field : NumberField) (value : Json) :
    Reports (positive field value) (Unfit field value) := by
  apply Reports.of_iff
  intro fault
  unfold positive
  cases hx : number? value with
  | none =>
    rw [unfit_iff_of_none hx]
    simp [eq_comm]
  | some x =>
    rw [unfit_iff_of_some hx]
    dsimp only
    by_cases hfit : x.isFinite = true ∧ 0 < x
    · rw [if_pos hfit]
      simp [hfit]
    · rw [if_neg hfit, and_iff_right hfit, Except.error.injEq, eq_comm]

/-- A positive number that must be there. -/
def readRequired (field : NumberField) : Option Json → Except DocumentFault Float
  | none => .error (.required field)
  | some value => positive field value

/-- A positive number that may be absent. -/
def readOptional (field : NumberField) : Option Json → Except DocumentFault (Option Float)
  | none => .ok none
  | some value => positive field value >>= fun x => .ok (some x)

theorem reports_readRequired (field : NumberField) (value : Option Json) :
    Reports (readRequired field value) (RequiredViolates field value) := by
  cases value with
  | none => exact .of_iff fun fault => by simp [readRequired, RequiredViolates, eq_comm]
  | some value =>
    exact (reports_positive field value).congr fun fault => by simp [RequiredViolates]

theorem reports_readOptional (field : NumberField) (value : Option Json) :
    Reports (readOptional field value) (OptionalViolates field value) := by
  cases value with
  | none => exact (Reports.pure none).congr fun fault => by simp [OptionalViolates]
  | some value =>
    exact (reports_positive field value).bind_pure.congr fun fault => by simp [OptionalViolates]

/-! ## Sections -/

theorem idViolates_iff_of_none {i : Nat} {value : Option Json} {fault : DocumentFault}
    (h : value.bind Json.toFloat? = none) : IdViolates i value fault ↔ fault = .idNotNumber i := by
  have hnone : ∀ v x, value = some v → v.toFloat? ≠ some x := by
    rintro v x rfl hv
    rw [Option.bind_some, hv] at h
    cases h
  constructor
  · rintro (⟨-, rfl⟩ | ⟨v, x, hvalue, hv, -⟩)
    · rfl
    · exact absurd hv (hnone v x hvalue)
  · rintro rfl
    exact Or.inl ⟨hnone, rfl⟩

theorem idViolates_iff_of_some {i : Nat} {value : Option Json} {fault : DocumentFault} {x : Float}
    (h : value.bind Json.toFloat? = some x) :
    IdViolates i value fault ↔ Binary64.whole? x = none ∧ fault = .idNotWhole i x := by
  obtain ⟨v, rfl, hv⟩ := Option.bind_eq_some_iff.1 h
  rw [Option.eq_none_iff_forall_ne_some]
  simp only [ne_eq, Binary64.whole?_eq_some]
  constructor
  · rintro (⟨hnone, -⟩ | ⟨v', x', hvalue, hv', hbroken, rfl⟩)
    · exact absurd hv (hnone v x rfl)
    · cases hvalue
      cases hv.symm.trans hv'
      exact ⟨hbroken, rfl⟩
  · rintro ⟨hbroken, rfl⟩
    exact Or.inr ⟨v, x, rfl, hv, hbroken, rfl⟩

theorem reports_readId (i : Nat) (value : Option Json) :
    Reports (readId i value) (IdViolates i value) := by
  apply Reports.of_iff
  intro fault
  unfold readId
  cases hx : value.bind Json.toFloat? with
  | none =>
    rw [idViolates_iff_of_none hx]
    simp [eq_comm]
  | some x =>
    rw [idViolates_iff_of_some hx]
    cases hwhole : Binary64.whole? x with
    | none => simp [hwhole, eq_comm]
    | some n => simp [hwhole]

theorem exists_getElem?_cons {A : Type} {a : A} {as : List A} {p : Nat → A → Prop} :
    (∃ k b, (a :: as)[k]? = some b ∧ p k b) ↔ p 0 a ∨ ∃ k b, as[k]? = some b ∧ p (k + 1) b := by
  constructor
  · rintro ⟨k, b, hb, hp⟩
    cases k with
    | zero =>
      cases hb
      exact Or.inl hp
    | succ k => exact Or.inr ⟨k, b, hb, hp⟩
  · rintro (hp | ⟨k, b, hb, hp⟩)
    · exact ⟨0, a, rfl, hp⟩
    · exact ⟨k + 1, b, hb, hp⟩

def readString (i j : Nat) : Json → Except DocumentFault String
  | .string s => .ok s
  | _ => .error (.scoreNotString i j)

theorem readStrings_cons (i j : Nat) (item : Json) (items : List Json) :
    readStrings i j (item :: items) =
      readString i j item >>= fun s => readStrings i (j + 1) items >>= fun rest => .ok (s :: rest) := by
  cases item <;> rfl

theorem reports_readString (i j : Nat) (item : Json) :
    Reports (readString i j item) fun fault =>
      (∀ s, item ≠ .string s) ∧ fault = .scoreNotString i j := by
  apply Reports.of_iff
  intro fault
  cases item <;> simp [readString, eq_comm]

theorem reports_readStrings (i j : Nat) (items : List Json) :
    Reports (readStrings i j items) fun fault =>
      ∃ k item, items[k]? = some item ∧ (∀ s, item ≠ .string s) ∧ fault = .scoreNotString i (j + k) := by
  induction items generalizing j with
  | nil => exact (Reports.pure []).congr fun fault => by simp
  | cons item items ih =>
    rw [readStrings_cons]
    refine ((reports_readString i j item).bind (fun s => (ih (j + 1)).bind_pure) ?_).congr fun fault => ?_
    · rintro _ _ ⟨-, rfl⟩ ⟨k, _, -, -, rfl⟩
      simp [DocumentFault.place, Nat.add_assoc]
    · rw [exists_getElem?_cons]
      simp only [Nat.add_zero, Nat.add_assoc, Nat.add_comm 1]

theorem reports_readScores (i : Nat) (value : Option Json) :
    Reports (readScores i value) (ScoresViolate i value) := by
  by_cases harray : ∃ items, value = some (.array items)
  · obtain ⟨items, rfl⟩ := harray
    refine (reports_readStrings i 0 items).congr fun fault => ?_
    simp [ScoresViolate]
  · have hnone : ∀ items, value ≠ some (.array items) := fun items h => harray ⟨items, h⟩
    have hfails : readScores i value = .error (.scoresNotArray i) := by
      unfold readScores
      split
      · exact absurd rfl (hnone _)
      · rfl
    rw [hfails]
    exact .of_iff fun fault => by simp [ScoresViolate, hnone, eq_comm]

theorem readMusic_object (i : Nat) (members : List (String × Json)) :
    readMusic i (.object members) =
      readId i (Json.member? members "id") >>= fun id =>
      readOptional (.bpm i) (Json.member? members "bpm") >>= fun bpm =>
      readRequired (.baseBeats i) (Json.member? members "baseBeats") >>= fun baseBeats =>
      readScores i (Json.member? members "scores") >>= fun scores =>
      .ok ⟨id, bpm, baseBeats, scores⟩ := by
  have hmap : ∀ value, (positive (.bpm i) value).map some =
      positive (.bpm i) value >>= fun x => .ok (some x) := by
    intro value
    cases positive (.bpm i) value <;> rfl
  unfold readMusic
  simp only [hmap]
  cases readId i (Json.member? members "id") with
  | error fault => rfl
  | ok id => cases Json.member? members "bpm" <;> cases Json.member? members "baseBeats" <;> rfl

theorem reports_object (i : Nat) (members : List (String × Json)) :
    Reports (readMusic i (.object members)) (MusicViolates i members) := by
  rw [readMusic_object]
  refine ((reports_readId i _).bind (fun id => (reports_readOptional (.bpm i) _).bind (fun bpm =>
    (reports_readRequired (.baseBeats i) _).bind (fun baseBeats => (reports_readScores i _).bind_pure)
      ?beatsFirst) ?bpmFirst) ?idFirst).congr fun fault => musicViolates_iff.symm
  case beatsFirst =>
    intro fault other hfault hother
    exact (InField.of_baseBeats hfault).lt (InField.of_scores hother) (by decide)
  case bpmFirst =>
    rintro fault other hfault (hother | hother)
    · exact (InField.of_bpm hfault).lt (InField.of_baseBeats hother) (by decide)
    · exact (InField.of_bpm hfault).lt (InField.of_scores hother) (by decide)
  case idFirst =>
    rintro fault other hfault (hother | hother | hother)
    · exact (InField.of_id hfault).lt (InField.of_bpm hother) (by decide)
    · exact (InField.of_id hfault).lt (InField.of_baseBeats hother) (by decide)
    · exact (InField.of_id hfault).lt (InField.of_scores hother) (by decide)

theorem reports_readMusic (i : Nat) (entry : Json) :
    Reports (readMusic i entry) (EntryViolates i entry) := by
  cases entry with
  | object members => exact (reports_object i members).congr fun fault => by simp [EntryViolates]
  | null | bool | int | float | string | array =>
    exact .of_iff fun fault => by simp [EntryViolates, readMusic, eq_comm]

theorem reports_readMusics (i : Nat) (entries : List Json) :
    Reports (readMusics i entries) fun fault =>
      ∃ k entry, entries[k]? = some entry ∧ EntryViolates (i + k) entry fault := by
  induction entries generalizing i with
  | nil => exact (Reports.pure []).congr fun fault => by simp
  | cons entry entries ih =>
    refine ((reports_readMusic i entry).bind (fun music => (ih (i + 1)).bind_pure) ?_).congr
      fun fault => ?_
    · rintro fault other hfault ⟨k, entry', -, hother⟩
      obtain ⟨_, _, hplace⟩ := InField.of_entry hfault
      obtain ⟨_, _, hplace'⟩ := InField.of_entry hother
      rw [hplace, hplace', place_lt_place]
      left
      omega
    · rw [exists_getElem?_cons]
      simp only [Nat.add_zero, Nat.add_assoc, Nat.add_comm 1]

/-! ## Documents -/

def readSections : Option Json → Except DocumentFault (List Music)
  | none => .error .musicsRequired
  | some (.array entries) => readMusics 0 entries
  | some _ => .error .musicsNotArray

theorem reports_readSections (musics : Option Json) :
    Reports (readSections musics) (SectionsViolate musics) := by
  rcases musics with _ | _ | _ | _ | _ | _ | entries | _
  case some.array =>
    exact (reports_readMusics 0 entries).congr fun fault => by simp [SectionsViolate]
  all_goals exact .of_iff fun fault => by simp [readSections, SectionsViolate, eq_comm]

theorem ofDocument_eq (document : LevelDocument) :
    ofDocument document =
      readRequired .baseBpm document.baseBpm >>= fun baseBpm =>
      readSections document.musics >>= fun musics =>
      .ok ⟨baseBpm, musics, document.audition⟩ := by
  obtain ⟨baseBpm, musics, audition⟩ := document
  rcases baseBpm with _ | value
  · rfl
  · rcases musics with _ | _ | _ | _ | _ | _ | _ | _ <;> rfl

/-- **Reading a document reports its first violation.** -/
theorem reports_ofDocument (document : LevelDocument) :
    Reports (ofDocument document) document.Violates := by
  rw [ofDocument_eq]
  refine ((reports_readRequired .baseBpm _).bind (fun baseBpm => (reports_readSections _).bind_pure)
    fun fault other hfault hother => hother.lt hfault).congr
      fun fault => LevelDocument.violates_iff.symm

end Level

end RhythmTiles
