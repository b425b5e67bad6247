import RhythmTiles.Proofs.Shares
import RhythmTiles.Proofs.Outcome
import RhythmTiles.Score.Fault

/-!
# Arithmetic on words

The operations on 64-bit words that a reading on words does. A sum, product or difference that is no
word either wraps around or stops the reading (`Overflow`). Where the result on natural numbers is a
word, both give it (`add_ofNat`, `mul_ofNat`, `sub_ofNat`), and so a share on words is the share
(`divide_ofNat`). What follows a step agrees when the step does (`bind_faulting`).
-/

namespace RhythmTiles.Words

/-- What becomes of a result that is no word. -/
inductive Overflow where
  | wrap
  | trap
  deriving DecidableEq, Repr

/-- Why a reading on words stops. -/
inductive Stop where
  /-- The result of an operation is no word. -/
  | overflow
  | fault (fault : ScoreFault)
  deriving DecidableEq

def add (policy : Overflow) (a b : UInt64) : Except Stop UInt64 :=
  if policy = .trap ∧ 2 ^ 64 ≤ a.toNat + b.toNat then .error .overflow else .ok (a + b)

def mul (policy : Overflow) (a b : UInt64) : Except Stop UInt64 :=
  if policy = .trap ∧ 2 ^ 64 ≤ a.toNat * b.toNat then .error .overflow else .ok (a * b)

def sub (policy : Overflow) (a b : UInt64) : Except Stop UInt64 :=
  if policy = .trap ∧ a < b then .error .overflow else .ok (a - b)

/-- The next share of `total` over `divisor`, with so much left over before it, and what is left over
then. -/
def divide (policy : Overflow) (left total divisor : UInt64) : Except Stop (UInt64 × UInt64) :=
  if divisor = 0 then .ok (0, left)
  else do
    let left ← add policy left (total % divisor)
    if divisor ≤ left then
      let share ← add policy (total / divisor) 1
      let left ← sub policy left divisor
      pure (share, left)
    else pure (total / divisor, left)

variable {policy : Overflow}

theorem ok_bind {A B : Type} (a : A) (next : A → Except Stop B) : (.ok a >>= next) = next a := rfl

/-! ## Results that are words -/

theorem toNat_ofNat_le (n : Nat) : (UInt64.ofNat n).toNat ≤ n := by
  rw [UInt64.toNat_ofNat']
  exact Nat.mod_le n _

theorem ofNat_eq_zero {a : Nat} (ha : a < 2 ^ 64) : UInt64.ofNat a = 0 ↔ a = 0 := by
  constructor
  · intro h
    have hzero := congrArg UInt64.toNat h
    rwa [UInt64.toNat_ofNat_of_lt' ha] at hzero
  · rintro rfl
    rfl

theorem ofNat_min {a b : Nat} (ha : a < 2 ^ 64) (hb : b < 2 ^ 64) :
    min (UInt64.ofNat a) (UInt64.ofNat b) = UInt64.ofNat (min a b) := by
  rw [← UInt64.toNat_inj, UInt64.toNat_min, UInt64.toNat_ofNat_of_lt' ha,
    UInt64.toNat_ofNat_of_lt' hb, UInt64.toNat_ofNat_of_lt' (min_lt_of_left_lt ha)]

theorem ofNat_max {a b : Nat} (ha : a < 2 ^ 64) (hb : b < 2 ^ 64) :
    max (UInt64.ofNat a) (UInt64.ofNat b) = UInt64.ofNat (max a b) := by
  rw [← UInt64.toNat_inj, UInt64.toNat_max, UInt64.toNat_ofNat_of_lt' ha,
    UInt64.toNat_ofNat_of_lt' hb, UInt64.toNat_ofNat_of_lt' (max_lt ha hb)]

theorem add_ofNat {a b : Nat} (h : a + b < 2 ^ 64) :
    add policy (.ofNat a) (.ofNat b) = .ok (.ofNat (a + b)) := by
  have ha := toNat_ofNat_le a
  have hb := toNat_ofNat_le b
  rw [add, if_neg (by omega), UInt64.ofNat_add]

theorem mul_ofNat {a b : Nat} (h : a * b < 2 ^ 64) :
    mul policy (.ofNat a) (.ofNat b) = .ok (.ofNat (a * b)) := by
  have hle := Nat.mul_le_mul (toNat_ofNat_le a) (toNat_ofNat_le b)
  rw [mul, if_neg (by omega), UInt64.ofNat_mul]

theorem sub_ofNat {a b : Nat} (ha : a < 2 ^ 64) (h : b ≤ a) :
    sub policy (.ofNat a) (.ofNat b) = .ok (.ofNat (a - b)) := by
  have hlt : ¬UInt64.ofNat a < UInt64.ofNat b := by
    rw [UInt64.ofNat_lt_iff_lt ha (h.trans_lt ha)]
    omega
  rw [sub, if_neg (by tauto), UInt64.ofNat_sub h]

/-- A difference is taken away, whatever becomes of an overflow. -/
theorem sub_eq_ok {a b d : UInt64} (h : sub policy a b = .ok d) : d = a - b := by
  unfold sub at h
  split at h
  · cases h
  · cases h
    rfl

/-! ## Shares -/

/-- **A share on words is the share**, as long as the remainders of two divisions fit in a word. -/
theorem divide_ofNat {carry : Carry} {total divisor : Nat} (htotal : total < 2 ^ 64)
    (hdivisor : divisor ≤ 2 ^ 63) (h : carry.remainder < divisor) :
    divide policy (.ofNat carry.remainder) (.ofNat total) (.ofNat divisor) =
      .ok (.ofNat (carry.divide total divisor).1, .ofNat (carry.divide total divisor).2.remainder) := by
  have hmod : total % divisor < divisor := Nat.mod_lt total (by omega)
  have hshare := Carry.divide_le total h
  have hone : (1 : UInt64) = .ofNat 1 := rfl
  have hzero : ¬UInt64.ofNat divisor = 0 := by
    rw [ofNat_eq_zero (by omega)]
    omega
  unfold divide
  rw [if_neg hzero, ← UInt64.ofNat_mod htotal (by omega), ← UInt64.ofNat_div htotal (by omega),
    add_ofNat (by omega)]
  unfold Carry.divide at hshare ⊢
  rw [if_neg (by omega)] at hshare ⊢
  simp only [ok_bind, UInt64.ofNat_le_iff_le (by omega : divisor < 2 ^ 64)
    (by omega : carry.remainder + total % divisor < 2 ^ 64)]
  by_cases hfull : divisor ≤ carry.remainder + total % divisor
  · rw [if_pos hfull] at hshare ⊢
    rw [if_pos hfull, hone, add_ofNat (Nat.lt_of_le_of_lt hshare htotal), sub_ofNat (by omega) hfull]
    rfl
  · rw [if_neg hfull, if_neg hfull]
    rfl

/-! ## Steps -/

/-- A result on numbers as a result on words. -/
def faulting {A B : Type} (f : A → B) : Except ScoreFault A → Except Stop B
  | .ok a => .ok (f a)
  | .error fault => .error (.fault fault)

theorem faulting_id {A : Type} (x : Except ScoreFault A) : faulting id x = x.mapError .fault := by
  cases x <;> rfl

/-- **What follows a step agrees on words, when the step does.** -/
theorem bind_faulting {A B C D : Type} {f : A → B} {g : C → D} {x : Except ScoreFault A}
    {next : A → Except ScoreFault C} {next' : B → Except Stop D}
    (h : ∀ a, x = .ok a → next' (f a) = faulting g (next a)) :
    (faulting f x >>= next') = faulting g (x >>= next) := by
  cases x with
  | error fault => rfl
  | ok a => exact h a rfl

end RhythmTiles.Words
