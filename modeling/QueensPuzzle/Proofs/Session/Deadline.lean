import Mathlib.Order.Bounds.Basic

/-! # Deadlines

When a stretch of steps is over: the clock is read after every step, and the first reading that
has come to the deadline ends the stretch, if the search has not ended before. Some deadlines
never come.
-/

namespace QueensPuzzle.Session.Deadline

/-- So many steps are taken of those that remain, where `due j` tells whether the deadline is due
after step number `j`. -/
structure StopsAfter (due : Nat → Prop) (remaining taken : Nat) : Prop where
  le : taken ≤ remaining
  not_due : ∀ j, 1 ≤ j → j < taken → ¬due j
  ended : taken = remaining ∨ 1 ≤ taken ∧ due taken

namespace StopsAfter

variable {due : Nat → Prop} {remaining taken first : Nat}

theorem nothing (due : Nat → Prop) : StopsAfter due 0 0 :=
  ⟨Nat.le_refl 0, by omega, .inl rfl⟩

theorem one (hdue : due 1) : StopsAfter due (remaining + 1) 1 :=
  ⟨by omega, by omega, .inr ⟨Nat.le_refl 1, hdue⟩⟩

/-- After a step that the deadline is not due after, the rest is a stretch of its own. -/
theorem succ (hdue : ¬due 1) (h : StopsAfter (fun j => due (j + 1)) remaining taken) :
    StopsAfter due (remaining + 1) (taken + 1) := by
  refine ⟨by have := h.le; omega, ?_, ?_⟩
  · intro j hj hlt
    by_cases hone : j = 1
    · rwa [hone]
    · obtain ⟨j, rfl⟩ : ∃ k, j = k + 1 := ⟨j - 1, by omega⟩
      exact h.not_due j (by omega) (by omega)
  · obtain hall | ⟨hpos, hlast⟩ := h.ended
    · exact .inl (by rw [hall])
    · exact .inr ⟨by omega, hlast⟩

theorem eq_min (h : StopsAfter due remaining taken) (hfirst : IsLeast {j | 1 ≤ j ∧ due j} first) :
    taken = min remaining first := by
  obtain ⟨⟨hpos, hdue⟩, hleast⟩ := hfirst
  have hle : taken ≤ first := by
    by_contra hlt
    exact h.not_due first hpos (by omega) hdue
  have hremaining := h.le
  obtain hall | hlast := h.ended
  · omega
  · have hfirst : first ≤ taken := hleast hlast
    omega

theorem eq_remaining (h : StopsAfter due remaining taken) (hnever : ∀ j ≥ 1, ¬due j) :
    taken = remaining := by
  obtain hall | ⟨hpos, hdue⟩ := h.ended
  · exact hall
  · exact absurd hdue (hnever taken hpos)

/-- Something is done if anything is left to do. -/
theorem pos (h : StopsAfter due remaining taken) (hremaining : 0 < remaining) : 0 < taken := by
  obtain hall | ⟨hpos, _⟩ := h.ended
  · omega
  · exact hpos

end StopsAfter

section Clock

open Float.Model

/-- Not a number. -/
def nan : Float := 0 / 0

/-- The infinity above all numbers. -/
def inf : Float := 1 / 0

variable {a b budget : Float} {now : Nat → Float}

theorem unpack_nan : nan.toModel.unpack = .notANumber := rfl

theorem unpack_inf : inf.toModel.unpack = .infinity .positive := rfl

theorem add_eq (a b : Float) :
    a + b = .ofModel (pack (.add .binary64 a.toModel.unpack b.toModel.unpack)) := rfl

theorem le_iff_unpack : a ≤ b ↔ a.toModel.unpack.le b.toModel.unpack = true := by
  change Float.le a b = true ↔ _
  rw [Float.le, decide_eq_true_eq]
  rfl

section Bits

open UnpackedFloat

variable {bits : BitVec Format.binary64.numBits}

theorem eq_zero_of_ofBitVec {sign : BitVec 1} (h : Sign.ofBitVec sign = .positive) :
    sign = 0#1 := by
  by_contra hset
  have hnegative : Sign.ofBitVec sign = .negative := if_neg hset
  rw [hnegative] at h
  cases h

/-- The fraction, the exponent and the sign are all the bits that there are. -/
theorem eq_packedInfinity (hfraction : unpackMantissa bits = 0#52)
    (hexponent : unpackExponent bits = -1#11) (hsign : unpackSign bits = 0#1) :
    bits = packedInfinity .binary64 .positive := by
  have hlow : (bits.extractLsb 51 0).toNat = 0 := congrArg BitVec.toNat hfraction
  have hmiddle : (bits.extractLsb 62 52).toNat = 2047 := congrArg BitVec.toNat hexponent
  have hhigh : (bits.extractLsb 63 63).toNat = 0 := congrArg BitVec.toNat hsign
  have hbits : bits.toNat < 2 ^ 64 := bits.isLt
  rw [BitVec.extractLsb_toNat, Nat.shiftRight_eq_div_pow] at hlow hmiddle hhigh
  apply BitVec.eq_of_toNat_eq
  change bits.toNat = 2047 * 2 ^ 52
  omega

/-- With its exponent full a float is infinite or no number, and otherwise it is finite. -/
theorem eq_packedInfinity_of_unpack
    (h : UnpackedFloat.unpack .binary64 bits = .infinity .positive) :
    bits = packedInfinity .binary64 .positive := by
  unfold UnpackedFloat.unpack at h
  by_cases hexponent : unpackExponent bits = -1#11
  · by_cases hfraction : unpackMantissa bits = 0#52
    · rw [if_pos hexponent, if_pos hfraction] at h
      exact eq_packedInfinity hfraction hexponent (eq_zero_of_ofBitVec (infinity.inj h))
    · rw [if_pos hexponent, if_neg hfraction] at h
      cases h
  · rw [if_neg hexponent] at h
    by_cases hzero : unpackExponent bits = 0#11
    · by_cases hfraction : unpackMantissa bits = 0#52
      · rw [if_pos hzero, dif_pos hfraction] at h
        cases h
      · rw [if_pos hzero, dif_neg hfraction] at h
        cases h
    · rw [if_neg hzero] at h
      cases h

end Bits

theorem eq_inf_of_unpack (h : b.toModel.unpack = .infinity .positive) : b = inf := by
  obtain ⟨⟨⟨bits⟩, _⟩⟩ := b
  obtain rfl := eq_packedInfinity_of_unpack h
  rfl

theorem not_nan_le (b : Float) : ¬nan ≤ b := by
  rw [le_iff_unpack, unpack_nan]
  cases b.toModel.unpack <;> nofun

theorem eq_inf_of_le (h : inf ≤ b) : b = inf := by
  rw [le_iff_unpack, unpack_inf] at h
  cases hb : b.toModel.unpack with
  | infinity sign =>
      cases sign with
      | positive => exact eq_inf_of_unpack hb
      | negative =>
          rw [hb] at h
          cases h
  | _ =>
      rw [hb] at h
      cases h

theorem add_eq_nan
    (h : UnpackedFloat.add .binary64 a.toModel.unpack b.toModel.unpack = .notANumber) :
    a + b = nan := by
  rw [add_eq, h]
  rfl

theorem add_eq_inf
    (h : UnpackedFloat.add .binary64 a.toModel.unpack b.toModel.unpack = .infinity .positive) :
    a + b = inf := by
  rw [add_eq, h]
  rfl

theorem nan_add (b : Float) : nan + b = nan := by
  apply add_eq_nan
  rw [unpack_nan]
  rfl

theorem add_nan (a : Float) : a + nan = nan := by
  apply add_eq_nan
  rw [unpack_nan]
  cases a.toModel.unpack <;> rfl

/-- The opposite infinity is the one summand, but for `nan`, that infinity does not absorb. -/
theorem add_inf (a : Float) : a + inf = nan ∨ a + inf = inf := by
  cases ha : a.toModel.unpack with
  | notANumber =>
      refine .inl (add_eq_nan ?_)
      rw [ha]
      rfl
  | infinity sign =>
      cases sign with
      | positive =>
          refine .inr (add_eq_inf ?_)
          rw [ha, unpack_inf]
          rfl
      | negative =>
          refine .inl (add_eq_nan ?_)
          rw [ha, unpack_inf]
          rfl
  | _ =>
      refine .inr (add_eq_inf ?_)
      rw [ha, unpack_inf]
      rfl

/-- A span of time that no clock comes to the end of: it or the first reading is not a number,
or it is infinite and the clock never is. -/
inductive Unbounded (now : Nat → Float) : Float → Prop
  | nan : Unbounded now nan
  | start {budget : Float} (h : now 0 = nan) : Unbounded now budget
  | inf (h : ∀ k ≥ 1, now k ≠ inf) : Unbounded now inf

theorem Unbounded.not_le (h : Unbounded now budget) {k : Nat} (hk : k ≥ 1) :
    ¬now 0 + budget ≤ now k := by
  cases h with
  | nan =>
      rw [add_nan]
      exact not_nan_le _
  | start h =>
      rw [h, nan_add]
      exact not_nan_le _
  | inf h =>
      intro hle
      obtain hsum | hsum := add_inf (now 0)
      · rw [hsum] at hle
        exact not_nan_le _ hle
      · rw [hsum] at hle
        exact h k hk (eq_inf_of_le hle)

end Clock

end QueensPuzzle.Session.Deadline
