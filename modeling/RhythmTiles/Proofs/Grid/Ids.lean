import Mathlib
import RhythmTiles.Grid.Indicator

/-!
# Note ids

An id joins three numbers with dashes, and the first of them may have a sign. A number of digits ends at the
first dash behind it (`toDigits_append_inj`), and no such number begins with one (`toDigits_append_ne`), so
the three numbers can be read back (`noteId_eq_iff`).
-/

namespace RhythmTiles

theorem toDigits_inj {a b : Nat} : Nat.toDigits 10 a = Nat.toDigits 10 b ↔ a = b :=
  ⟨fun h => Nat.repr_inj.1 (congrArg String.ofList h), congrArg _⟩

/-- A number ends where its digits end. -/
theorem toDigits_append_inj {a b : Nat} {as bs : List Char}
    (h : Nat.toDigits 10 a ++ '-' :: as = Nat.toDigits 10 b ++ '-' :: bs) : a = b ∧ as = bs := by
  have hread : ∀ (n : Nat) (cs : List Char),
      (Nat.toDigits 10 n ++ '-' :: cs).takeWhile Char.isDigit = Nat.toDigits 10 n := by
    intro n cs
    rw [List.takeWhile_append_of_pos fun c => Nat.isDigit_of_mem_toDigits (by norm_num) le_rfl,
      List.takeWhile_cons_of_neg (by decide), List.append_nil]
  have hdigits := congrArg (List.takeWhile Char.isDigit) h
  rw [hread, hread, toDigits_inj] at hdigits
  subst hdigits
  exact ⟨rfl, (List.cons.inj (List.append_cancel_left h)).2⟩

/-- A number does not begin with a sign. -/
theorem toDigits_append_ne {a : Nat} {as bs : List Char} : Nat.toDigits 10 a ++ as ≠ '-' :: bs := by
  intro h
  obtain ⟨c, cs, hcons⟩ := List.exists_cons_of_ne_nil (Nat.toDigits_ne_nil (n := a) (b := 10))
  rw [hcons] at h
  obtain ⟨rfl, -⟩ := List.cons.inj h
  have hdash : '-' ∈ Nat.toDigits 10 a := hcons ▸ List.mem_cons_self
  cases Nat.isDigit_of_mem_toDigits (by norm_num) le_rfl hdash

theorem toList_toString_ofNat (n : Nat) : (toString (Int.ofNat n)).toList = Nat.toDigits 10 n := by
  rw [Int.toString_eq_repr]
  exact Nat.toList_repr

theorem toList_toString_negSucc (n : Nat) :
    (toString (Int.negSucc n)).toList = '-' :: Nat.toDigits 10 (n + 1) := by
  rw [Int.toString_eq_repr, Int.repr, String.toList_append, Nat.toList_repr]
  rfl

/-- A number with a sign ends where its digits end, too. -/
theorem toString_append_inj {m n : Int} {as bs : List Char}
    (h : (toString m).toList ++ '-' :: as = (toString n).toList ++ '-' :: bs) : m = n ∧ as = bs := by
  cases m with
  | ofNat a =>
    rw [toList_toString_ofNat] at h
    cases n with
    | ofNat b =>
      rw [toList_toString_ofNat] at h
      obtain ⟨rfl, rfl⟩ := toDigits_append_inj h
      exact ⟨rfl, rfl⟩
    | negSucc b =>
      rw [toList_toString_negSucc] at h
      exact absurd h toDigits_append_ne
  | negSucc a =>
    rw [toList_toString_negSucc] at h
    cases n with
    | ofNat b =>
      rw [toList_toString_ofNat] at h
      exact absurd h.symm toDigits_append_ne
    | negSucc b =>
      rw [toList_toString_negSucc] at h
      obtain ⟨hdigits, rfl⟩ := toDigits_append_inj (List.cons.inj h).2
      rw [Nat.succ_injective hdigits]
      exact ⟨rfl, rfl⟩

/-- The three numbers of an id, and the dashes between them. -/
theorem toList_noteId (m : Int) (track : Nat) (p : Pitch) :
    (noteId m track p).toList =
      (toString m).toList ++ '-' :: (Nat.toDigits 10 track ++ '-' :: Nat.toDigits 10 p) := by
  have hjoin : noteId m track p = toString m ++ "-" ++ toString track ++ "-" ++ toString p := rfl
  simp only [hjoin, String.toList_append, List.append_assoc, Nat.toString_eq_repr, Nat.toList_repr]
  rfl

/-- **An id tells milliseconds, track and pitch.** -/
theorem noteId_eq_iff {m n : Int} {track track' : Nat} {p q : Pitch} :
    noteId m track p = noteId n track' q ↔ m = n ∧ track = track' ∧ p = q := by
  constructor
  · intro h
    have hchars := congrArg String.toList h
    rw [toList_noteId, toList_noteId] at hchars
    obtain ⟨hmillis, hrest⟩ := toString_append_inj hchars
    obtain ⟨htrack, hpitch⟩ := toDigits_append_inj hrest
    exact ⟨hmillis, htrack, toDigits_inj.1 hpitch⟩
  · rintro ⟨rfl, rfl, rfl⟩
    rfl

end RhythmTiles
