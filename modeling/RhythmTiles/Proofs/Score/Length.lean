import RhythmTiles.Proofs.Score.Completion

/-!
# The letters of a score

Note names and gaps have no letters in them, so the letters of a score are those of its phrases, in
order (`Spells.letters_eq`). Each phrase lasts as long as its letters. So a track that is read lasts as
long as all letters of its text (`ticks_read`), and each letter of the text sounds or rests
(`letterSum_eq`).
-/

namespace RhythmTiles

namespace Letter

def letters (cs : List Char) : List Char := cs.filter isLength

theorem letters_append (cs ds : List Char) : letters (cs ++ ds) = letters cs ++ letters ds :=
  List.filter_append cs ds

theorem letters_cons_of_not {c : Char} (h : isLength c = false) (cs : List Char) :
    letters (c :: cs) = letters cs :=
  List.filter_cons_of_neg (by simp [h])

theorem letters_eq_nil {cs : List Char} : letters cs = [] ↔ ∀ c ∈ cs, isLength c = false := by
  simp [letters]

end Letter

namespace Score

open Letter

theorem isLength_of_isGap {c : Char} (h : isGap c = true) : isLength c = false := by
  by_cases hm : c ∈ marks
  · have hmarks : ∀ d, d ∈ marks → isGap d = true → isLength d = false := forall_marks (by decide)
    exact hmarks c hm h
  · rw [isGap, isFill_of_not_mark hm, isSeparator_of_not_mark hm, Bool.or_false,
      Bool.or_eq_true] at h
    rcases h with h | h
    · exact isLength_eq_false (isAlpha_of_isBlank h)
    · exact isLength_eq_false (isAlpha_of_isDigit h)

/-! ## Names have no letters -/

theorem step?_of_isLength {c : Char} (h : isLength c = true) : Pitch.step? c = none := by
  cases hr : isRest c with
  | true =>
    unfold isRest restUnits? at hr
    split at hr <;> first | rfl | simp at hr
  | false =>
    unfold isRest at hr
    have hs : (soundUnits? c).isSome = true := by
      simpa [isLength, units?, hr] using h
    unfold soundUnits? at hs
    split at hs <;> first | rfl | simp at hs

/-- A note without sharp is spelled without letters. -/
theorem letters_of_natural {name : List Char} {n : Nat} (h : Pitch.natural? name = some n) :
    letters name = [] := by
  cases name with
  | nil => cases h
  | cons c suffix =>
    obtain ⟨step, hstep, h⟩ := Option.bind_eq_some_iff.1 h
    obtain ⟨octave, hoctave, -⟩ := Option.bind_eq_some_iff.1 h
    have hc : isLength c = false := by
      cases hlength : isLength c with
      | false => rfl
      | true =>
        rw [step?_of_isLength hlength] at hstep
        cases hstep
    rw [letters_cons_of_not hc]
    unfold Pitch.octave? Pitch.raised? Pitch.lowered? at hoctave
    split at hoctave <;> split at hoctave <;> first | rfl | cases hoctave

theorem letters_of_ofName {name : List Char} {p : Pitch} (h : Pitch.ofName? name = some p) :
    letters name = [] := by
  unfold Pitch.ofName? at h
  split at h
  · rename_i hmute
    rcases hmute with rfl | rfl <;> decide
  · dsimp only at h
    split at h
    · obtain ⟨_, hpitch, -⟩ := Option.bind_eq_some_iff.1 h
      obtain ⟨natural, hnatural, -⟩ := Option.map_eq_some_iff.1 hpitch
      rw [letters_cons_of_not (by decide)]
      exact letters_of_natural hnatural
    · obtain ⟨natural, hnatural, -⟩ := Option.bind_eq_some_iff.1 h
      exact letters_of_natural hnatural

/-- What stands between the parentheses has no letters. -/
theorem letters_of_bodyEntries {body : List Char} {entries : List Entry}
    (h : bodyEntries? body = some entries) : letters body = [] := by
  induction body using bodyEntries?.induct generalizing entries with
  | case1 => rfl
  | case2 c body hname ih =>
    rw [bodyEntries?, if_pos hname] at h
    obtain ⟨note, hnote, h⟩ := Option.bind_eq_some_iff.1 h
    obtain ⟨others, hothers, -⟩ := Option.bind_eq_some_iff.1 h
    obtain ⟨p, hp, -⟩ := Option.map_eq_some_iff.1 hnote
    rw [← List.takeWhile_append_dropWhile (p := isNameChar) (l := body), ← List.cons_append,
      letters_append, letters_of_ofName hp, ih hothers]
    rfl
  | case3 c body hname ih =>
    rw [bodyEntries?_cons (by simpa using hname)] at h
    obtain ⟨others, hothers, -⟩ := Option.map_eq_some_iff.1 h
    have halpha : c.isAlpha = false := by
      simp only [isNameChar, Bool.or_eq_true, not_or, Bool.not_eq_true] at hname
      exact hname.1.1.1
    rw [letters_cons_of_not (isLength_eq_false halpha)]
    exact ih hothers

/-! ## The letters of phrases -/

theorem letterSum_letters (cs : List Char) : letterSum (letters cs) = letterSum cs := by
  induction cs with
  | nil => rfl
  | cons c cs ih =>
    cases hc : isLength c with
    | true => rw [letters, List.filter_cons_of_pos hc, letterSum_cons, letterSum_cons, ← ih]; rfl
    | false => rw [letters_cons_of_not hc, letterSum_cons, units_eq_zero hc, ih, Nat.zero_add]

theorem letterSum_append (cs ds : List Char) : letterSum (cs ++ ds) = letterSum cs + letterSum ds := by
  simp [letterSum]

/-- The letters of a phrase, all of which take time. -/
def Phrase.letters : Phrase → List Char
  | unit _ code => Letter.letters code
  | rest letters => Letter.letters letters

theorem Phrase.ticks_eq (meter : Meter) (phrase : Phrase) :
    phrase.ticks meter = letterSum phrase.letters * meter.ticksPerUnit := by
  cases phrase <;> rw [Phrase.letters, letterSum_letters] <;> rfl

theorem sum_ticks (meter : Meter) (phrases : List Phrase) :
    (phrases.map (Phrase.ticks meter)).sum =
      letterSum (phrases.flatMap Phrase.letters) * meter.ticksPerUnit := by
  induction phrases with
  | nil => simp
  | cons phrase phrases ih =>
    rw [List.map_cons, List.sum_cons, ih, List.flatMap_cons, letterSum_append, Nat.add_mul,
      Phrase.ticks_eq]

theorem letters_of_ends {p : Char → Bool} (hp : ∀ c, p c = true → isLength c = false)
    {rest unread : List Char} (h : Ends p rest unread) : letters rest = letters unread := by
  rcases h with ⟨rfl, rfl⟩ | ⟨c, hc, rfl⟩
  · rfl
  · exact letters_cons_of_not (hp c hc) unread

/-- **The letters of a score are those of its phrases.** -/
theorem Spells.letters_eq {text : List Char} {phrases : List Phrase} (h : Spells text phrases)
    (hbodies : ∀ body code, Phrase.unit body code ∈ phrases → letters body = []) :
    letters text = phrases.flatMap Phrase.letters := by
  induction h with
  | done => rfl
  | gap hc h ih =>
    rw [letters_cons_of_not (isLength_of_isGap hc)]
    exact ih hbodies
  | @unit body blanks code fill rest text phrases hbody hblanks hcode hletter hfill hend h ih =>
    have hnamed : letters body = [] := hbodies body code List.mem_cons_self
    have hblank : letters blanks = [] := letters_eq_nil.2 fun c hc =>
      isLength_eq_false (isAlpha_of_isBlank (hblanks c hc))
    have hfilled : letters fill = [] := letters_eq_nil.2 fun c hc =>
      isLength_of_isGap (by rw [isGap, hfill c hc, Bool.true_or])
    have hrest : letters rest = letters text :=
      letters_of_ends (fun c hc => isLength_of_isGap (by rw [isGap, hc, Bool.or_true])) hend
    have hmarks : letters ['('] = [] ∧ letters [')'] = [] ∧ letters ['['] = [] ∧
        letters [']'] = [] := by decide
    simp only [letters_append, hnamed, hblank, hfilled, hrest, hmarks, List.nil_append,
      List.append_nil, List.flatMap_cons, Phrase.letters,
      ih fun body code hmem => hbodies body code (List.mem_cons_of_mem _ hmem)]
  | rest hne hletters hend h ih =>
    rw [letters_append, letters_of_ends (fun c => isLength_of_isGap) hend, List.flatMap_cons,
      ih fun body code hmem => hbodies body code (List.mem_cons_of_mem _ hmem)]
    rfl

/-! ## The length of a track -/

theorem Phrase.Plays.ticks_eq {meter : Meter} {phrase : Phrase} {track : Track}
    (h : phrase.Plays meter track) : track.ticks = phrase.ticks meter := by
  cases phrase with
  | unit body code =>
    obtain ⟨entries, -, hexpand⟩ := h
    exact Chord.ticks_expand (hexpand 0)
  | rest letters =>
    cases h
    exact Nat.add_zero _

theorem ticks_flatten {meter : Meter} {phrases : List Phrase} {tracks : List Track}
    (h : List.Forall₂ (Phrase.Plays meter) phrases tracks) :
    Track.ticks tracks.flatten = (phrases.map (Phrase.ticks meter)).sum := by
  induction h with
  | nil => rfl
  | cons hplays h ih => rw [List.flatten_cons, Track.ticks_append, hplays.ticks_eq, ih]; rfl

/-- The bodies of units that are played have no letters. -/
theorem letters_of_mem_phrases {meter : Meter} {phrases : List Phrase} {tracks : List Track}
    (h : List.Forall₂ (Phrase.Plays meter) phrases tracks) {body code : List Char}
    (hmem : Phrase.unit body code ∈ phrases) : letters body = [] := by
  induction h with
  | nil => cases hmem
  | cons hplays h ih =>
    rcases List.mem_cons.1 hmem with rfl | hmem
    · obtain ⟨entries, hentries, -⟩ := hplays
      exact letters_of_bodyEntries hentries
    · exact ih hmem

theorem remaining_of_read {meter : Meter} {text : List Char} {track : Track}
    (h : read meter text = .ok track) : Remaining meter 0 text track := by
  obtain ⟨later, rfl, hremaining⟩ :=
    (Scan.run_eq_ok Scan.inv_initial text.length).1 (Outcome.bind_eq_ok.1 h)
  exact hremaining

/-- **A track lasts as long as all letters of its text.** -/
theorem ticks_read {meter : Meter} {text : List Char} {track : Track}
    (h : read meter text = .ok track) : track.ticks = letterSum text * meter.ticksPerUnit := by
  obtain ⟨phrases, tracks, hspells, hplays, -, rfl⟩ := remaining_of_read h
  rw [ticks_flatten hplays, sum_ticks,
    ← hspells.letters_eq fun body code => letters_of_mem_phrases hplays, letterSum_letters]

end Score

namespace Letter

/-! ## Totals of letters -/

theorem isLength_eq_isSome (c : Char) : isLength c = ((soundUnits? c).isSome || isRest c) := by
  simp [isLength, units?, isRest, Option.isSome_or]

theorem soundTotal_eq (cs : List Char) : soundTotal cs = (cs.filterMap soundUnits?).sum :=
  List.sum_eq_foldl_nat.symm

theorem restTotal_eq (cs : List Char) : restTotal cs = (cs.filterMap restUnits?).sum :=
  List.sum_eq_foldl_nat.symm

theorem soundTotal_append (cs ds : List Char) :
    soundTotal (cs ++ ds) = soundTotal cs + soundTotal ds := by
  simp [soundTotal_eq]

theorem restTotal_append (cs ds : List Char) :
    restTotal (cs ++ ds) = restTotal cs + restTotal ds := by
  simp [restTotal_eq]

theorem soundTotal_letters (cs : List Char) : soundTotal (letters cs) = soundTotal cs := by
  rw [soundTotal_eq, soundTotal_eq, letters, List.filterMap_filter]
  congr 2
  funext c
  cases hsound : soundUnits? c <;> simp [isLength_eq_isSome, hsound]

theorem restTotal_letters (cs : List Char) : restTotal (letters cs) = restTotal cs := by
  rw [restTotal_eq, restTotal_eq, letters, List.filterMap_filter]
  congr 2
  funext c
  cases hrest : restUnits? c <;> simp [isLength_eq_isSome, isRest, hrest]

/-- No rest letter sounds. -/
theorem soundUnits?_of_isRest {c : Char} (h : isRest c = true) : soundUnits? c = none := by
  unfold isRest restUnits? at h
  split at h <;> first | rfl | simp at h

/-- All letters of a text sound or rest. -/
theorem letterSum_eq (cs : List Char) : Score.letterSum cs = soundTotal cs + restTotal cs := by
  induction cs with
  | nil => rfl
  | cons c cs ih =>
    rw [Score.letterSum_cons, ih, ← List.singleton_append, soundTotal_append, restTotal_append]
    have hc : (units? c).getD 0 = soundTotal [c] + restTotal [c] := by
      cases hrest : restUnits? c with
      | some units =>
        have hsound := soundUnits?_of_isRest (show isRest c = true by rw [isRest, hrest]; rfl)
        simp [soundTotal_eq, restTotal_eq, units?, hrest, hsound]
      | none =>
        cases hsound : soundUnits? c <;>
          simp [soundTotal_eq, restTotal_eq, units?, hrest, hsound]
    omega

end Letter

end RhythmTiles
