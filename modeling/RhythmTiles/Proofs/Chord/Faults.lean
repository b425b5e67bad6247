import RhythmTiles.Proofs.Chord.Length

/-!
# Why a chord cannot be played

Entries are refused for one of four reasons, and what is reported is the first of them (`Refused`):
glyphs of two kinds, several ornaments, an ornament that is not between two notes, an ornament on a
pitch that is no key. The first two are looked for in all entries (`check_eq_error`), the others group
by group, when the groups before have been played. But an ornament is all that can spoil a group
(`expandGroup_eq_error`), and behind the checks there is one at most (`eq_of_ornament_mem`), so it does
not matter which group is played first (`expandGroups_eq_error`). Main theorem: `expand_refuses`.
-/

namespace RhythmTiles.Chord

/-! ## Reasons -/

/-- Glyphs of two kinds ask how a group is played. -/
def Mixed (entries : List Entry) : Prop :=
  ∃ g g', g ∉ [Glyph.separator, .divider] ∧ g' ∉ [Glyph.separator, .divider] ∧ g ≠ g' ∧
    .glyph g ∈ entries ∧ .glyph g' ∈ entries

/-- There are several ornaments. -/
def Repeated (entries : List Entry) : Prop := 1 < entries.count (.glyph .ornament)

/-- The group is two notes around an ornament. -/
def IsOrnament (group : List Entry) : Prop :=
  ∃ first second, group = [.pitch first, .glyph .ornament, .pitch second]

/-- There is an ornament in the group, but not just two notes around it. -/
def Misshapen (group : List Entry) : Prop := .glyph .ornament ∈ group ∧ ¬IsOrnament group

/-- The group is an ornament on a pitch that is no key. -/
def OffKeys (group : List Entry) : Prop :=
  ∃ first second, group = [.pitch first, .glyph .ornament, .pitch second] ∧
    (first < Pitch.firstReal ∨ second < Pitch.firstReal)

/-- The entries are refused, and this is reported: of the reasons there are, the first. -/
inductive Refused (entries : List Entry) : Misreading → Prop where
  | mixed (h : Mixed entries) : Refused entries .mixedGlyphs
  | repeated (hkinds : ¬Mixed entries) (h : Repeated entries) : Refused entries .repeatedOrnament
  | malformed (hkinds : ¬Mixed entries) (hone : ¬Repeated entries)
      (h : ∃ group ∈ groups entries, Misshapen group) : Refused entries .malformedOrnament
  | unplayable (hkinds : ¬Mixed entries) (hone : ¬Repeated entries)
      (hshape : ¬∃ group ∈ groups entries, Misshapen group)
      (h : ∃ group ∈ groups entries, OffKeys group) : Refused entries .unplayableOrnament

variable {entries group : List Entry} {position ornamentTotal length : Nat} {fault : ScoreFault}

/-! ## All entries -/

/-- A glyph asks for an arrangement if it is no separator and no divider. -/
theorem asked?_eq_some {e : Entry} {a : Arrangement} (h : asked? e = some a) :
    ∃ g, e = .glyph g ∧ g ∉ [Glyph.separator, .divider] := by
  rcases e with p | g
  · cases h
  · refine ⟨g, rfl, ?_⟩
    intro hg
    rcases List.mem_pair.1 hg with rfl | rfl <;> cases h

theorem exists_asked? {g : Glyph} (h : g ∉ [Glyph.separator, .divider]) :
    ∃ a, asked? (.glyph g) = some a := by
  cases g with
  | separator => simp at h
  | divider => simp at h
  | arpeggio style => exact ⟨_, rfl⟩
  | ornament => exact ⟨_, rfl⟩

/-- Different glyphs ask for different arrangements. -/
theorem asked?_inj {e e' : Entry} {a : Arrangement} (h : asked? e = some a) (h' : asked? e' = some a) :
    e = e' := by
  rcases e with p | g
  · cases h
  rcases e' with p | g'
  · cases h'
  cases g <;> cases h <;> cases g' <;> cases h' <;> rfl

/-- All arrangements that are asked for are the same. -/
def Agree (asked : List Arrangement) : Prop := ∀ a ∈ asked, ∀ a' ∈ asked, a = a'

theorem agree_cons_self {a : Arrangement} {asked : List Arrangement} :
    Agree (a :: a :: asked) ↔ Agree (a :: asked) := by
  simp only [Agree, List.mem_cons, or_self_left]

theorem mixed_iff : Mixed entries ↔ ¬Agree (entries.filterMap asked?) := by
  unfold Agree
  push Not
  constructor
  · rintro ⟨g, g', hg, hg', hne, hmem, hmem'⟩
    obtain ⟨a, ha⟩ := exists_asked? hg
    obtain ⟨a', ha'⟩ := exists_asked? hg'
    refine ⟨a, List.mem_filterMap.2 ⟨_, hmem, ha⟩, a', List.mem_filterMap.2 ⟨_, hmem', ha'⟩, ?_⟩
    rintro rfl
    exact hne (Entry.glyph.inj (asked?_inj ha ha'))
  · rintro ⟨a, ha, a', ha', hne⟩
    obtain ⟨e, he, hasked⟩ := List.mem_filterMap.1 ha
    obtain ⟨e', he', hasked'⟩ := List.mem_filterMap.1 ha'
    obtain ⟨g, rfl, hg⟩ := asked?_eq_some hasked
    obtain ⟨g', rfl, hg'⟩ := asked?_eq_some hasked'
    refine ⟨g, g', hg, hg', ?_, he, he'⟩
    rintro rfl
    exact hne (Option.some.inj (hasked.symm.trans hasked'))

/-- Kinds are checked against the first that is asked for. -/
theorem checkKinds_eq_error {kind : Option Arrangement} :
    checkKinds position kind entries = .error fault ↔
      ¬Agree (kind.toList ++ entries.filterMap asked?) ∧ fault = .misread position .mixedGlyphs := by
  fun_induction checkKinds position kind entries with
  | case1 kind => cases kind <;> simp [Agree]
  | case2 kind entry entries hasked ih => rw [ih, List.filterMap_cons_none hasked]
  | case3 entry entries found hasked ih =>
    rw [ih, List.filterMap_cons_some hasked]
    rfl
  | case4 entry entries found hasked ih =>
    rw [ih, List.filterMap_cons_some hasked]
    simp only [Option.toList_some, List.singleton_append, agree_cons_self]
  | case5 entry entries found kind hasked hne =>
    have hdisagree : ¬Agree ((some kind).toList ++ (entry :: entries).filterMap asked?) := by
      rw [List.filterMap_cons_some hasked]
      intro hagree
      exact hne (hagree found (by simp) kind (by simp))
    simp only [Except.error.injEq, hdisagree, not_false_eq_true, true_and]
    exact eq_comm

theorem check_eq_error :
    check position entries = .error fault ↔
      Mixed entries ∧ fault = .misread position .mixedGlyphs ∨
        ¬Mixed entries ∧ Repeated entries ∧ fault = .misread position .repeatedOrnament := by
  have hkinds : ∀ fault, checkKinds position none entries = .error fault ↔
      Mixed entries ∧ fault = .misread position .mixedGlyphs := fun fault => by
    rw [checkKinds_eq_error, mixed_iff]
    rfl
  have hpass : checkKinds position none entries = .ok () ↔ ¬Mixed entries := by
    simp [Outcome.eq_ok_unit, hkinds]
  unfold check
  rw [Outcome.bind_eq_error, hkinds]
  by_cases hrepeated : 1 < entries.count (.glyph .ornament)
  · simp [hpass, Repeated, hrepeated, eq_comm]
  · simp [Repeated, hrepeated, pure, Except.pure]

theorem check_eq_ok : check position entries = .ok () ↔ ¬Mixed entries ∧ ¬Repeated entries := by
  simp only [Outcome.eq_ok_unit, ne_eq, check_eq_error]
  constructor
  · intro h
    have hkinds : ¬Mixed entries := fun hmixed => h _ (Or.inl ⟨hmixed, rfl⟩)
    exact ⟨hkinds, fun hrepeated => h _ (Or.inr ⟨hkinds, hrepeated, rfl⟩)⟩
  · rintro ⟨hkinds, hone⟩ fault (⟨hmixed, -⟩ | ⟨-, hrepeated, -⟩)
    · exact hkinds hmixed
    · exact hone hrepeated

/-! ## One group -/

/-- A group is played as an ornament if an entry asks for it. -/
theorem ornament_mem_of_arrangement (h : arrangement group = .ornament) :
    .glyph .ornament ∈ group := by
  unfold arrangement at h
  cases hfind : group.findSome? asked? with
  | none => simp [hfind] at h
  | some found =>
    rw [hfind, Option.getD_some] at h
    obtain ⟨entry, hentry, hasked⟩ := List.exists_of_findSome?_eq_some hfind
    have hornament : entry = .glyph .ornament := asked?_inj (hasked.trans (congrArg some h)) rfl
    exact hornament ▸ hentry

/-- Where kinds are not mixed, an ornament decides how its group is played. -/
theorem arrangement_of_ornament_mem (hkinds : ¬Mixed group) (h : .glyph .ornament ∈ group) :
    arrangement group = .ornament := by
  unfold arrangement
  cases hfind : group.findSome? asked? with
  | none => exact absurd (List.findSome?_eq_none_iff.1 hfind _ h) (by simp [asked?])
  | some found =>
    obtain ⟨entry, hentry, hasked⟩ := List.exists_of_findSome?_eq_some hfind
    rw [mixed_iff, not_not] at hkinds
    exact hkinds found (List.mem_filterMap.2 ⟨entry, hentry, hasked⟩) .ornament
      (List.mem_filterMap.2 ⟨_, h, rfl⟩)

theorem ornament_eq_error :
    ornament group length ornamentTotal position = .error fault ↔
      ¬IsOrnament group ∧ fault = .misread position .malformedOrnament ∨
        OffKeys group ∧ fault = .misread position .unplayableOrnament := by
  unfold ornament
  split
  · rename_i first second
    have hshape : IsOrnament [.pitch first, .glyph .ornament, .pitch second] := ⟨first, second, rfl⟩
    have hkeys : OffKeys [.pitch first, .glyph .ornament, .pitch second] ↔
        first < Pitch.firstReal ∨ second < Pitch.firstReal := by simp [OffKeys]
    rw [hkeys]
    by_cases hreal : first < Pitch.firstReal ∨ second < Pitch.firstReal
    · simp [hshape, hreal, eq_comm]
    · simp [hshape, hreal]
  · rename_i hother
    have hshape : ¬IsOrnament group := by
      rintro ⟨first, second, rfl⟩
      exact hother first second rfl
    have hkeys : ¬OffKeys group := by
      rintro ⟨first, second, rfl, -⟩
      exact hother first second rfl
    simp [hshape, hkeys, eq_comm]

/-- The group makes a chord at the position fail. -/
def Spoils (position : Nat) (group : List Entry) (fault : ScoreFault) : Prop :=
  Misshapen group ∧ fault = .misread position .malformedOrnament ∨
    OffKeys group ∧ fault = .misread position .unplayableOrnament

theorem OffKeys.isOrnament (h : OffKeys group) : IsOrnament group := by
  obtain ⟨first, second, hgroup, -⟩ := h
  exact ⟨first, second, hgroup⟩

theorem OffKeys.mem (h : OffKeys group) : .glyph .ornament ∈ group := by
  obtain ⟨first, second, rfl⟩ := h.isOrnament
  simp

theorem Spoils.mem (h : Spoils position group fault) : .glyph .ornament ∈ group := by
  rcases h with ⟨h, -⟩ | ⟨h, -⟩
  · exact h.1
  · exact h.mem

theorem Spoils.unique {fault' : ScoreFault} (h : Spoils position group fault)
    (h' : Spoils position group fault') : fault = fault' := by
  rcases h with ⟨hshape, rfl⟩ | ⟨hkeys, rfl⟩ <;> rcases h' with ⟨hshape', rfl⟩ | ⟨hkeys', rfl⟩
  · rfl
  · exact absurd hkeys'.isOrnament hshape.2
  · exact absurd hkeys.isOrnament hshape'.2
  · rfl

theorem expandGroup_eq_error (hkinds : ¬Mixed group) :
    expandGroup ornamentTotal position group length = .error fault ↔
      Spoils position group fault := by
  by_cases hmem : .glyph .ornament ∈ group
  · rw [expandGroup, arrangement_of_ornament_mem hkinds hmem, Spoils, Misshapen]
    simp only [hmem, true_and]
    exact ornament_eq_error
  · have hnone : ¬Spoils position group fault := fun h => hmem h.mem
    simp only [hnone, iff_false]
    unfold expandGroup
    split
    · simp
    · simp
    · rename_i harrangement
      exact absurd (ornament_mem_of_arrangement harrangement) hmem

/-! ## All groups -/

/-- Groups that fail alike fail when one of them does. -/
theorem expandGroups_eq_error {shares : List (List Entry × Nat)}
    (halike : ∀ s ∈ shares, ∀ s' ∈ shares, ∀ fault fault',
      expandGroup ornamentTotal position s.1 s.2 = .error fault →
      expandGroup ornamentTotal position s'.1 s'.2 = .error fault' → fault = fault') :
    expandGroups ornamentTotal position shares = .error fault ↔
      ∃ s ∈ shares, expandGroup ornamentTotal position s.1 s.2 = .error fault := by
  induction shares with
  | nil => simp [expandGroups]
  | cons share shares ih =>
    have ih := ih fun s hs s' hs' =>
      halike s (List.mem_cons_of_mem _ hs) s' (List.mem_cons_of_mem _ hs')
    rw [expandGroups, Outcome.bind_eq_error]
    simp only [Outcome.bind_eq_error, ih, List.exists_mem_cons_iff]
    cases hshare : expandGroup ornamentTotal position share.1 share.2 with
    | ok track => simp [pure, Except.pure]
    | error fault' =>
      have hlater : ∀ s ∈ shares, expandGroup ornamentTotal position s.1 s.2 = .error fault →
          fault' = fault := fun s hs =>
        halike share List.mem_cons_self s (List.mem_cons_of_mem _ hs) fault' fault hshare
      simpa using hlater

theorem sum_count_groups (e : Entry) (he : e.isDivider = false) (entries : List Entry) :
    ((groups entries).map (List.count e)).sum = entries.count e := by
  unfold groups
  induction entries with
  | nil => rfl
  | cons entry entries ih =>
    rw [List.splitOnP_cons_eq_if_modifyHead]
    by_cases hdivider : entry.isDivider
    · have hne : entry ≠ e := by
        rintro rfl
        rw [he] at hdivider
        cases hdivider
      rw [if_pos hdivider, List.map_cons, List.sum_cons, ih, List.count_cons_of_ne hne,
        List.count_nil, Nat.zero_add]
    · rw [if_neg hdivider]
      cases hsplit : entries.splitOnP Entry.isDivider with
      | nil => exact absurd hsplit (List.splitOnP_ne_nil _ entries)
      | cons group groups =>
        rw [hsplit, List.map_cons, List.sum_cons] at ih
        rw [List.modifyHead_cons, List.map_cons, List.sum_cons, List.count_cons, List.count_cons, ← ih]
        omega

/-- One ornament stands in one group. -/
theorem eq_of_ornament_mem (hone : ¬Repeated entries) {group group' : List Entry}
    (hgroup : group ∈ groups entries) (hgroup' : group' ∈ groups entries)
    (h : .glyph .ornament ∈ group) (h' : .glyph .ornament ∈ group') : group = group' := by
  by_contra hne
  have hother : group' ∈ (groups entries).erase group := (List.mem_erase_of_ne (Ne.symm hne)).2 hgroup'
  have hsum := sum_count_groups (.glyph .ornament) rfl entries
  rw [((List.perm_cons_erase hgroup).map _).sum_eq, List.map_cons, List.sum_cons] at hsum
  have hle := List.le_sum_of_mem (List.mem_map_of_mem (f := List.count (.glyph .ornament)) hother)
  have hpos := List.count_pos_iff.2 h
  have hpos' := List.count_pos_iff.2 h'
  unfold Repeated at hone
  omega

/-! ## Chords -/

theorem Mixed.mono {group : List Entry} (h : Mixed group) (hsub : ∀ e ∈ group, e ∈ entries) :
    Mixed entries := by
  obtain ⟨g, g', hg, hg', hne, hmem, hmem'⟩ := h
  exact ⟨g, g', hg, hg', hne, hsub _ hmem, hsub _ hmem'⟩

/-- Behind the checks a chord fails when the group of its ornament does. -/
theorem expandGroups_zip_eq_error (hkinds : ¬Mixed entries) (hone : ¬Repeated entries)
    {shares : List Nat} (hshares : (groups entries).length ≤ shares.length) :
    expandGroups ornamentTotal position ((groups entries).zip shares) = .error fault ↔
      ∃ group ∈ groups entries, Spoils position group fault := by
  have hgroup : ∀ s ∈ (groups entries).zip shares, s.1 ∈ groups entries ∧ ∀ fault,
      expandGroup ornamentTotal position s.1 s.2 = .error fault ↔ Spoils position s.1 fault := by
    rintro ⟨group, share⟩ hs
    have hmem : group ∈ groups entries := (List.of_mem_zip hs).1
    exact ⟨hmem, fun fault =>
      expandGroup_eq_error fun h => hkinds (h.mono fun e he => mem_of_mem_groups hmem he)⟩
  rw [expandGroups_eq_error]
  · conv_rhs => rw [← List.map_fst_zip hshares]
    simp only [List.mem_map, exists_exists_and_eq_and]
    refine exists_congr fun s => and_congr_right fun hs => ?_
    exact (hgroup s hs).2 fault
  · intro s hs s' hs' fault fault' h h'
    rw [(hgroup s hs).2] at h
    rw [(hgroup s' hs').2] at h'
    have hsame : s.1 = s'.1 :=
      eq_of_ornament_mem hone (hgroup s hs).1 (hgroup s' hs').1 h.mem h'.mem
    exact h.unique (hsame ▸ h')

theorem expand_eq_error :
    expand entries length ornamentTotal position = .error fault ↔
      ∃ cause, Refused entries cause ∧ fault = .misread position cause := by
  unfold expand
  rw [Outcome.bind_eq_error, check_eq_error]
  constructor
  · rintro ((⟨h, rfl⟩ | ⟨hkinds, h, rfl⟩) | ⟨_, hcheck, h⟩)
    · exact ⟨_, .mixed h, rfl⟩
    · exact ⟨_, .repeated hkinds h, rfl⟩
    · obtain ⟨hkinds, hone⟩ := check_eq_ok.1 hcheck
      rw [expandGroups_zip_eq_error hkinds hone (by simp)] at h
      obtain ⟨group, hgroup, ⟨hshape, rfl⟩ | ⟨hkeys, rfl⟩⟩ := h
      · exact ⟨_, .malformed hkinds hone ⟨group, hgroup, hshape⟩, rfl⟩
      · refine ⟨_, .unplayable hkinds hone ?_ ⟨group, hgroup, hkeys⟩, rfl⟩
        -- a misshapen group would have the one ornament that this group has
        rintro ⟨group', hgroup', hshape⟩
        rw [← eq_of_ornament_mem hone hgroup hgroup' hkeys.mem hshape.1] at hshape
        exact hshape.2 hkeys.isOrnament
  · rintro ⟨cause, hrefused, rfl⟩
    cases hrefused with
    | mixed h => exact Or.inl (Or.inl ⟨h, rfl⟩)
    | repeated hkinds h => exact Or.inl (Or.inr ⟨hkinds, h, rfl⟩)
    | malformed hkinds hone h =>
      obtain ⟨group, hgroup, hshape⟩ := h
      refine Or.inr ⟨(), check_eq_ok.2 ⟨hkinds, hone⟩, ?_⟩
      exact (expandGroups_zip_eq_error hkinds hone (by simp)).2
        ⟨group, hgroup, Or.inl ⟨hshape, rfl⟩⟩
    | unplayable hkinds hone hshape h =>
      obtain ⟨group, hgroup, hkeys⟩ := h
      refine Or.inr ⟨(), check_eq_ok.2 ⟨hkinds, hone⟩, ?_⟩
      exact (expandGroups_zip_eq_error hkinds hone (by simp)).2
        ⟨group, hgroup, Or.inr ⟨hkeys, rfl⟩⟩

/-- A group of an ornament spoils its chord if it is not two keys around the ornament. -/
theorem misshapen_or_offKeys :
    Misshapen group ∨ OffKeys group ↔ .glyph .ornament ∈ group ∧
      ¬∃ first second, Pitch.firstReal ≤ first ∧ Pitch.firstReal ≤ second ∧
        group = [.pitch first, .glyph .ornament, .pitch second] := by
  constructor
  · rintro (⟨hmem, hshape⟩ | hkeys)
    · exact ⟨hmem, fun ⟨first, second, _, _, hgroup⟩ => hshape ⟨first, second, hgroup⟩⟩
    · refine ⟨hkeys.mem, ?_⟩
      rintro ⟨first, second, hfirst, hsecond, rfl⟩
      obtain ⟨_, _, hgroup, hlow | hlow⟩ := hkeys
      · cases hgroup
        exact Nat.not_le.2 hlow hfirst
      · cases hgroup
        exact Nat.not_le.2 hlow hsecond
  · rintro ⟨hmem, hkeys⟩
    by_cases hshape : IsOrnament group
    · obtain ⟨first, second, rfl⟩ := hshape
      refine Or.inr ⟨first, second, rfl, ?_⟩
      by_contra hhigh
      rw [not_or, Nat.not_lt, Nat.not_lt] at hhigh
      exact hkeys ⟨first, second, hhigh.1, hhigh.2, rfl⟩
    · exact Or.inl ⟨hmem, hshape⟩

theorem exists_refused :
    (∃ cause, Refused entries cause) ↔
      Mixed entries ∨ Repeated entries ∨
        ∃ group ∈ groups entries, Misshapen group ∨ OffKeys group := by
  constructor
  · rintro ⟨cause, h | ⟨-, h⟩ | ⟨-, -, group, hgroup, h⟩ | ⟨-, -, -, group, hgroup, h⟩⟩
    · exact Or.inl h
    · exact Or.inr (Or.inl h)
    · exact Or.inr (Or.inr ⟨group, hgroup, Or.inl h⟩)
    · exact Or.inr (Or.inr ⟨group, hgroup, Or.inr h⟩)
  · intro h
    by_cases hkinds : Mixed entries
    · exact ⟨_, .mixed hkinds⟩
    by_cases hone : Repeated entries
    · exact ⟨_, .repeated hkinds hone⟩
    by_cases hshape : ∃ group ∈ groups entries, Misshapen group
    · exact ⟨_, .malformed hkinds hone hshape⟩
    obtain ⟨group, hgroup, h | hkeys⟩ := (h.resolve_left hkinds).resolve_left hone
    · exact absurd ⟨group, hgroup, h⟩ hshape
    · exact ⟨_, .unplayable hkinds hone hshape ⟨group, hgroup, hkeys⟩⟩

/-- **A chord is refused for the first of four reasons**, whatever its length and the total of its
ornament; a chord without such a reason is played. -/
theorem expand_refuses (entries : List Entry) (length ornamentTotal position : Nat) :
    (∀ fault, expand entries length ornamentTotal position = .error fault ↔
      ∃ cause, Refused entries cause ∧ fault = .misread position cause) ∧
    ((∃ fault, expand entries length ornamentTotal position = .error fault) ↔
      Mixed entries ∨ Repeated entries ∨
        ∃ group ∈ groups entries, .glyph .ornament ∈ group ∧
          ¬∃ first second, Pitch.firstReal ≤ first ∧ Pitch.firstReal ≤ second ∧
            group = [.pitch first, .glyph .ornament, .pitch second]) := by
  refine ⟨fun fault => expand_eq_error, ?_⟩
  simp only [← misshapen_or_offKeys, ← exists_refused, expand_eq_error]
  constructor
  · rintro ⟨_, cause, hrefused, -⟩
    exact ⟨cause, hrefused⟩
  · rintro ⟨cause, hrefused⟩
    exact ⟨_, cause, hrefused, rfl⟩

/-- Two ornaments, the second with nothing around it: their number is reported, not its shape. -/
example :
    let ornament : Entry := .glyph .ornament
    expand [.pitch 72, ornament, .pitch 74, .glyph .divider, ornament] 100 720 9 =
      .error (.misread 9 .repeatedOrnament) := rfl

end RhythmTiles.Chord
