import Mathlib.Data.List.DropRight
import RhythmTiles.Tile.Piece

/-!
# Where a score is cut

A score is cut at the separators outside angle brackets, and its pieces are what stands between two
cuts, trimmed (`segments_eq_splitOnP`). What follows a separator outside brackets is cut as a score of
its own (`split_append`). No piece has a cut in it (`split_of_mem_split`), and all but the last end
outside brackets (`pairwise_depth_split`), so pieces with commas between them are cut into themselves.
Main theorem: `split_between_cuts`.
-/

namespace RhythmTiles

/-! ## Trimming -/

section

variable {A : Type} {p q : A → Bool}

theorem exists_dropWhile_rdropWhile (p : A → Bool) (l : List A) :
    ∃ front back, l = front ++ (l.dropWhile p).rdropWhile p ++ back ∧
      (∀ a ∈ front, p a = true) ∧ ∀ a ∈ back, p a = true := by
  refine ⟨l.takeWhile p, (l.dropWhile p).rtakeWhile p, ?_, ?_, ?_⟩
  · rw [List.append_assoc, List.rdropWhile_append_rtakeWhile, List.takeWhile_append_dropWhile]
  · intro a ha
    exact List.mem_takeWhile_imp ha
  · intro a ha
    exact List.mem_rtakeWhile_imp ha

/-- A selection that wants nothing of what is dropped at the ends does not miss it. -/
theorem filter_dropWhile_rdropWhile (h : ∀ a, p a = true → q a = false) (l : List A) :
    ((l.dropWhile p).rdropWhile p).filter q = l.filter q := by
  obtain ⟨front, back, hl, hfront, hback⟩ := exists_dropWhile_rdropWhile p l
  have hnone : ∀ as : List A, (∀ a ∈ as, p a = true) → as.filter q = [] := by
    intro as has
    rw [List.filter_eq_nil_iff]
    intro a ha
    simp [h a (has a ha)]
  conv_rhs => rw [hl]
  simp [hnone front hfront, hnone back hback]

end

namespace Text

theorem trim_eq (cs : List Char) : trim cs = (cs.dropWhile isBlank).rdropWhile isBlank := rfl

theorem trim_trim (cs : List Char) : trim (trim cs) = trim cs := by
  have hstart : trim cs <+: cs.dropWhile isBlank := List.rdropWhile_prefix isBlank _
  have hkept : (trim cs).dropWhile isBlank = trim cs := by
    rw [List.dropWhile_eq_self_iff]
    intro hpos
    rw [hstart.getElem hpos]
    exact List.dropWhile_get_zero_not isBlank cs (hpos.trans_le hstart.length_le)
  show trimRight ((trim cs).dropWhile isBlank) = trim cs
  rw [hkept]
  exact List.rdropWhile_idempotent isBlank (cs.dropWhile isBlank)

/-- Trims characters that come with something of their own. -/
def trimMarked {A : Type} (l : List (Char × A)) : List (Char × A) :=
  (l.dropWhile (isBlank ∘ Prod.fst)).rdropWhile (isBlank ∘ Prod.fst)

theorem map_fst_trimMarked {A : Type} (l : List (Char × A)) :
    (trimMarked l).map Prod.fst = trim (l.map Prod.fst) := by
  simp [trimMarked, trim, trimRight, List.rdropWhile, List.dropWhile_map, ← List.map_reverse]

theorem filter_trimMarked {A : Type} (l : List (Char × A)) :
    (trimMarked l).filter (fun m => !isBlank m.1) = l.filter fun m => !isBlank m.1 := by
  apply filter_dropWhile_rdropWhile
  intro m hm
  simpa using hm

end Text

namespace Piece

/-! ## Depth -/

/-- The depth of angle brackets behind a text. -/
def depth (text : List Char) : Nat := text.foldl depthAfter 0

/-- Whether a text is cut at a character, given with its place: the character is a separator, and no
angle bracket is open before it. -/
def isCut (text : List Char) : Char × Nat → Bool
  | (c, place) => isSeparator c && depth (text.take place) == 0

/-- No separator of the text stands outside angle brackets. -/
def Uncut (text : List Char) : Prop :=
  ∀ front c, front ++ [c] <+: text → isSeparator c = true → depth front ≠ 0

theorem depth_append (front back : List Char) :
    depth (front ++ back) = back.foldl depthAfter (depth front) := List.foldl_append

theorem depth_concat (text : List Char) (c : Char) :
    depth (text ++ [c]) = depthAfter (depth text) c := depth_append text [c]

theorem depthAfter_separator {c : Char} (h : isSeparator c = true) (depth : Nat) :
    depthAfter depth c = depth := by
  simp only [isSeparator, Bool.or_eq_true, beq_iff_eq] at h
  rcases h with rfl | rfl <;> rfl

/-- Text without angle brackets does not change the depth. -/
theorem foldl_depthAfter {cs : List Char} (h : ∀ c ∈ cs, c ≠ '<' ∧ c ≠ '>') (depth : Nat) :
    cs.foldl depthAfter depth = depth := by
  induction cs with
  | nil => rfl
  | cons c cs ih =>
    obtain ⟨⟨hopen, hclose⟩, hcs⟩ := List.forall_mem_cons.1 h
    rw [List.foldl_cons, depthAfter, if_neg hopen, if_neg hclose, ih hcs]

theorem foldl_depthAfter_blanks {blanks : List Char} (h : ∀ c ∈ blanks, Text.isBlank c = true)
    (depth : Nat) : blanks.foldl depthAfter depth = depth := by
  apply foldl_depthAfter
  intro c hc
  constructor
  · rintro rfl
    exact absurd (h _ hc) (by decide)
  · rintro rfl
    exact absurd (h _ hc) (by decide)

theorem depth_trim (text : List Char) : depth (Text.trim text) = depth text := by
  obtain ⟨front, back, htext, hfront, hback⟩ := exists_dropWhile_rdropWhile Text.isBlank text
  rw [← Text.trim_eq] at htext
  conv_rhs => rw [htext, depth_append, foldl_depthAfter_blanks hback, depth_append]
  rw [depth, depth, foldl_depthAfter_blanks hfront]

/-! ## Texts without cuts -/

theorem uncut_of_forall {text : List Char} (h : ∀ c ∈ text, isSeparator c = false) : Uncut text := by
  intro front c hprefix hc
  have hmem : c ∈ text := hprefix.subset (by simp)
  rw [h c hmem] at hc
  cases hc

theorem uncut_nil : Uncut [] := uncut_of_forall (by simp)

theorem Uncut.concat {text : List Char} {c : Char} (h : Uncut text)
    (hc : isSeparator c = true → depth text ≠ 0) : Uncut (text ++ [c]) := by
  intro front d hprefix hd
  rcases List.prefix_concat_iff.1 hprefix with heq | hprefix
  · obtain ⟨rfl, hsame⟩ := List.append_inj' heq rfl
    obtain rfl := List.singleton_inj.1 hsame
    exact hc hd
  · exact h front d hprefix hd

theorem Uncut.trim {text : List Char} (h : Uncut text) : Uncut (Text.trim text) := by
  obtain ⟨front, back, htext, hfront, -⟩ := exists_dropWhile_rdropWhile Text.isBlank text
  rw [← Text.trim_eq] at htext
  intro before c hprefix hc
  have hlater : (front ++ before) ++ [c] <+: text := by
    rw [htext, List.append_assoc, List.append_assoc, List.prefix_append_right_inj]
    exact hprefix.trans (List.prefix_append _ _)
  have hdepth := h _ c hlater hc
  rwa [depth_append, depth, foldl_depthAfter_blanks hfront] at hdepth

/-! ## Segments -/

section

variable (current : List Char) {rest : List Char}

/-- Text without a cut is read into the current segment. -/
theorem segments_append {cs : List Char} (h : Uncut (current.reverse ++ cs)) (rest : List Char) :
    segments (depth current.reverse) current (cs ++ rest) =
      segments (depth (current.reverse ++ cs)) (cs.reverse ++ current) rest := by
  induction cs generalizing current with
  | nil => rw [List.append_nil]; rfl
  | cons c cs ih =>
    have hhere : ¬(isSeparator c && depth current.reverse == 0) = true := by
      have hprefix : current.reverse ++ [c] <+: current.reverse ++ c :: cs := by simp
      simpa using h current.reverse c hprefix
    have hread : (c :: current).reverse ++ cs = current.reverse ++ c :: cs := by simp
    rw [← hread] at h
    have hrest := ih (c :: current) h
    rw [List.reverse_cons, depth_concat] at hrest
    rw [List.cons_append, segments, if_neg hhere, hrest]
    simp

theorem segments_of_uncut {text : List Char} (h : Uncut text) : segments 0 [] text = [text] := by
  have hall := segments_append [] h []
  simpa [segments, depth] using hall

/-- **Every segment is without cuts.** -/
theorem uncut_of_mem_segments (h : Uncut current.reverse) {segment : List Char}
    (hsegment : segment ∈ segments (depth current.reverse) current rest) : Uncut segment := by
  induction rest generalizing current with
  | nil =>
    rw [segments, List.mem_singleton] at hsegment
    rwa [hsegment]
  | cons c rest ih =>
    rw [segments] at hsegment
    by_cases hcut : (isSeparator c && depth current.reverse == 0) = true
    · rw [if_pos hcut, List.mem_cons] at hsegment
      rcases hsegment with rfl | hsegment
      · exact h
      · exact ih [] uncut_nil hsegment
    · rw [if_neg hcut, ← depth_concat, ← List.reverse_cons] at hsegment
      refine ih (c :: current) ?_ hsegment
      rw [List.reverse_cons]
      apply h.concat
      intro hc
      simpa [hc] using hcut

/-- **Every segment before another ends outside brackets.** -/
theorem pairwise_depth_segments :
    (segments (depth current.reverse) current rest).Pairwise fun segment _ => depth segment = 0 := by
  induction rest generalizing current with
  | nil => simp [segments]
  | cons c rest ih =>
    rw [segments]
    by_cases hcut : (isSeparator c && depth current.reverse == 0) = true
    · rw [if_pos hcut, List.pairwise_cons]
      simp only [Bool.and_eq_true, beq_iff_eq] at hcut
      exact ⟨fun _ _ => hcut.2, ih []⟩
    · rw [if_neg hcut, ← depth_concat, ← List.reverse_cons]
      exact ih (c :: current)

/-- A separator outside brackets starts anew. -/
theorem segments_separator {front back : List Char} {c : Char}
    (hdepth : front.foldl depthAfter (depth current.reverse) = 0) (hc : isSeparator c = true) :
    segments (depth current.reverse) current (front ++ c :: back) =
      segments (depth current.reverse) current front ++ segments 0 [] back := by
  induction front generalizing current with
  | nil =>
    have hcut : (isSeparator c && depth current.reverse == 0) = true := by
      simpa [hc] using hdepth
    have hstart : segments (depth current.reverse) current (c :: back) =
        current.reverse :: segments 0 [] back := by
      rw [segments, if_pos hcut]
    exact hstart
  | cons d front ih =>
    rw [List.foldl_cons] at hdepth
    rw [List.cons_append, segments, segments]
    by_cases hcut : (isSeparator d && depth current.reverse == 0) = true
    · simp only [Bool.and_eq_true, beq_iff_eq] at hcut
      rw [depthAfter_separator hcut.1, hcut.2] at hdepth
      simp only [hcut, beq_self_eq_true, Bool.and_self, if_true, List.cons_append]
      exact congrArg (current.reverse :: ·) (ih [] hdepth)
    · rw [if_neg hcut, if_neg hcut, ← depth_concat, ← List.reverse_cons]
      apply ih
      rwa [List.reverse_cons, depth_concat]

theorem segments_eq_splitOnPPrepend (front rest : List Char) (current : List (Char × Nat)) :
    ((rest.zipIdx front.length).splitOnPPrepend (isCut (front ++ rest)) current).map
        (List.map Prod.fst) =
      segments (depth front) (current.map Prod.fst) rest := by
  induction rest generalizing front current with
  | nil => simp [segments]
  | cons c rest ih =>
    have hcut : isCut (front ++ c :: rest) (c, front.length) =
        (isSeparator c && depth front == 0) := by
      simp [isCut]
    have hnext := ih (front ++ [c])
    simp only [List.length_append, List.length_singleton, List.append_assoc, List.singleton_append,
      depth_concat] at hnext
    rw [List.zipIdx_cons, List.splitOnPPrepend_cons_eq_if, hcut, segments]
    by_cases h : (isSeparator c && depth front == 0) = true
    · have hrest := hnext []
      rw [if_pos h, if_pos h, List.map_cons, List.map_reverse, List.splitOnP, hrest]
      simp only [Bool.and_eq_true, beq_iff_eq] at h
      rw [h.2, depthAfter_separator h.1]
      rfl
    · rw [if_neg h, if_neg h]
      exact hnext _

/-- **Segments are what stands between two cuts.** -/
theorem segments_eq_splitOnP (text : List Char) :
    (text.zipIdx.splitOnP (isCut text)).map (List.map Prod.fst) = segments 0 [] text := by
  rw [← List.splitOnPPrepend_nil_right]
  exact segments_eq_splitOnPPrepend [] text []

end

/-! ## Pieces -/

section

variable {text piece : List Char}

theorem mem_split : piece ∈ split text ↔
    piece ≠ [] ∧ ∃ segment ∈ segments 0 [] text, Text.trim segment = piece := by
  simp [split, and_comm]

theorem trim_of_mem_split (h : piece ∈ split text) : Text.trim piece = piece := by
  obtain ⟨-, segment, -, rfl⟩ := mem_split.1 h
  exact Text.trim_trim segment

theorem split_of_uncut (h : Uncut piece) (htrim : Text.trim piece = piece) (hne : piece ≠ []) :
    split piece = [piece] := by
  simp [split, segments_of_uncut h, htrim, hne]

/-- **A piece is cut into itself.** -/
theorem split_of_mem_split (h : piece ∈ split text) : split piece = [piece] := by
  obtain ⟨hne, segment, hsegment, htrim⟩ := mem_split.1 h
  have huncut : Uncut piece := by
    rw [← htrim]
    exact (uncut_of_mem_segments [] uncut_nil hsegment).trim
  exact split_of_uncut huncut (trim_of_mem_split h) hne

/-- All pieces but the last end outside brackets. -/
theorem pairwise_depth_split (text : List Char) :
    (split text).Pairwise fun piece _ => depth piece = 0 := by
  apply List.Pairwise.filter
  rw [List.pairwise_map]
  simp only [depth_trim]
  exact pairwise_depth_segments []

/-- **What follows a separator outside brackets is cut as a score of its own.** -/
theorem split_append {front back : List Char} {c : Char} (hdepth : depth front = 0)
    (hc : isSeparator c = true) : split (front ++ c :: back) = split front ++ split back := by
  have hsegments : segments 0 [] (front ++ c :: back) =
      segments 0 [] front ++ segments 0 [] back := segments_separator [] hdepth hc
  rw [split, hsegments, List.map_append, List.filter_append]
  rfl

theorem split_intercalate {texts : List (List Char)}
    (h : texts.Pairwise fun text _ => depth text = 0) :
    split ([','].intercalate texts) = texts.flatMap split := by
  induction texts with
  | nil => rfl
  | cons first texts ih =>
    obtain ⟨hfirst, hrest⟩ := List.pairwise_cons.1 h
    cases texts with
    | nil => simp
    | cons second texts =>
      have hdepth : depth first = 0 := hfirst second List.mem_cons_self
      rw [List.intercalate_cons_cons, List.append_assoc, List.singleton_append,
        split_append hdepth rfl, ih hrest]
      rfl

end

/-! ## Characters -/

theorem flatten_splitOnPPrepend {A : Type} (p : A → Bool) (l current : List A) :
    (l.splitOnPPrepend p current).flatten = current.reverse ++ l.filter fun a => !p a := by
  induction l generalizing current with
  | nil => simp
  | cons a l ih =>
    rw [List.splitOnPPrepend_cons_eq_if]
    by_cases h : p a = true
    · have hrest := ih []
      rw [List.splitOnPPrepend_nil_right] at hrest
      simp [h, hrest]
    · simp [h, ih]

/-- The pieces as they stand in the score: their characters with their places. -/
def places (text : List Char) : List (List (Char × Nat)) :=
  ((text.zipIdx.splitOnP (isCut text)).map Text.trimMarked).filter fun piece => !piece.isEmpty

theorem map_fst_places (text : List Char) : (places text).map (List.map Prod.fst) = split text := by
  rw [split, ← segments_eq_splitOnP]
  simp [places, List.filter_map, Function.comp_def, ← Text.map_fst_trimMarked]

/-- **All characters but blanks and cuts stand in the pieces**, in order and at places of their own. -/
theorem filter_flatten_places (text : List Char) :
    (places text).flatten.filter (fun m => !Text.isBlank m.1) =
      text.zipIdx.filter fun m => !isCut text m && !Text.isBlank m.1 := by
  have hall := flatten_splitOnPPrepend (isCut text) text.zipIdx []
  rw [List.splitOnPPrepend_nil_right, List.reverse_nil, List.nil_append] at hall
  rw [places, List.flatten_filter_not_isEmpty, List.filter_flatten, List.map_map]
  simp only [Function.comp_def, Text.filter_trimMarked]
  rw [← List.filter_flatten, hall, List.filter_filter]
  simp only [Bool.and_comm]

/-- **A score is cut at the separators outside angle brackets**, and the pieces are what stands
between two cuts, trimmed, without empty ones. Pieces with commas between them are cut into
themselves, what follows a separator outside brackets is cut as a score of its own, and each character
that is no blank and no cut stands in the pieces once. -/
theorem split_between_cuts (text : List Char) :
    split text = ((text.zipIdx.splitOnP (isCut text)).map fun segment =>
      Text.trim (segment.map Prod.fst)).filter (fun piece => !piece.isEmpty) ∧
    split ([','].intercalate (split text)) = split text ∧
    (∀ front c back, text = front ++ c :: back → depth front = 0 → isSeparator c = true →
      split text = split front ++ split back) ∧
    ∃ marked : List (List (Char × Nat)), marked.map (List.map Prod.fst) = split text ∧
      marked.flatten.filter (fun m => !Text.isBlank m.1) =
        text.zipIdx.filter fun m => !isCut text m && !Text.isBlank m.1 := by
  refine ⟨?_, ?_, ?_, places text, map_fst_places text, filter_flatten_places text⟩
  · rw [split, ← segments_eq_splitOnP, List.map_map]
    rfl
  · rw [split_intercalate (pairwise_depth_split text)]
    have hsame : (split text).flatMap split = (split text).flatMap fun piece => [piece] := by
      apply List.flatMap_congr
      intro piece hpiece
      exact split_of_mem_split hpiece
    rw [hsame, List.flatMap_singleton']
  · rintro front c back rfl hdepth hc
    exact split_append hdepth hc

/-- A bracket that closes nothing does not count, and one that is never closed keeps the rest together. -/
theorem split_between_cuts_unbalanced :
    let front := "(c)[K]>; ,5<(e)[M],(g)[M]> ".toList
    let back := "U,<d;e".toList
    depth front = 0 ∧ isSeparator ';' = true ∧
      split (front ++ ';' :: back) = split front ++ split back ∧
      split front = ["(c)[K]>".toList, "5<(e)[M],(g)[M]>".toList] ∧
      split back = ["U".toList, "<d;e".toList] := by
  intro front back
  have hdepth : depth front = 0 := by decide
  obtain ⟨-, -, happend, -⟩ := split_between_cuts (front ++ ';' :: back)
  exact ⟨hdepth, rfl, happend front ';' back rfl hdepth rfl, by decide, by decide⟩

end Piece

end RhythmTiles
