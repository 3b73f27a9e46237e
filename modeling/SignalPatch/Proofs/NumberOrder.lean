import SignalPatch.Decimal.Numeral

/-!
# The order of floating-point numbers

Every value except the one that is no number is comparable with every other, and numerals denote
such values only.
-/

namespace SignalPatch.Decimal

open Float.Model (Format UnpackedFloat)

/-- The value is a number, perhaps infinite. -/
def IsNumber (v : Float) : Prop := v.isNaN = false

instance : DecidablePred IsNumber := fun v => inferInstanceAs (Decidable (v.isNaN = false))

/-! ## Order -/

theorem compare_swap (f g : UnpackedFloat) : g.compare f = (f.compare g).map Ordering.swap := by
  cases f with
  | notANumber => cases g <;> rfl
  | infinity s =>
    cases s <;> cases g with
    | infinity t => cases t <;> rfl
    | _ => rfl
  | zero s =>
    cases g with
    | infinity t | finite t => cases t <;> rfl
    | _ => rfl
  | finite s m e =>
    cases s <;> cases g with
    | infinity t => cases t <;> rfl
    | finite t n d =>
      cases t
      all_goals
        dsimp only [UnpackedFloat.compare]
        try rw [← Int.compare_swap e d, ← Nat.compare_swap m n]
        cases compare e d <;> cases compare m n <;> rfl
    | _ => rfl

theorem exists_compare {f g : UnpackedFloat} (hf : f.isNaN = false) (hg : g.isNaN = false) :
    ∃ order, f.compare g = some order := by
  cases f with
  | notANumber => cases hf
  | infinity s =>
    cases s <;> cases g with
    | notANumber => cases hg
    | _ => exact ⟨_, rfl⟩
  | zero s =>
    cases g with
    | notANumber => cases hg
    | infinity t | finite t => cases t <;> exact ⟨_, rfl⟩
    | zero => exact ⟨_, rfl⟩
  | finite s m e =>
    cases s <;> cases g with
    | notANumber => cases hg
    | infinity t | finite t => cases t <;> exact ⟨_, rfl⟩
    | zero => exact ⟨_, rfl⟩

theorem lt_iff (a b : Float) : a < b ↔ a.toModel.unpack.compare b.toModel.unpack = some .lt := by
  change decide ((_ == _) = true) = true ↔ _
  rw [decide_eq_true_iff, beq_iff_eq]

theorem le_iff (a b : Float) :
    a ≤ b ↔ (a.toModel.unpack.compare b.toModel.unpack).any (·.isLE) := by
  change decide (_ = true) = true ↔ _
  exact decide_eq_true_iff

theorem le_of_lt {a b : Float} (h : a < b) : a ≤ b := by
  rw [lt_iff] at h
  rw [le_iff, h]
  rfl

theorem not_lt_of_le {a b : Float} (h : a ≤ b) : ¬ b < a := by
  rw [le_iff] at h
  rw [lt_iff, compare_swap]
  cases horder : a.toModel.unpack.compare b.toModel.unpack with
  | none => simp
  | some order => cases order <;> simp_all

theorem le_of_not_lt {a b : Float} (ha : IsNumber a) (hb : IsNumber b) (h : ¬ b < a) : a ≤ b := by
  obtain ⟨order, horder⟩ := exists_compare ha hb
  rw [lt_iff, compare_swap, horder] at h
  rw [le_iff, horder]
  cases order with
  | gt => exact absurd rfl h
  | lt | eq => rfl

theorem le_self {a : Float} (ha : IsNumber a) : a ≤ a := by
  refine le_of_not_lt ha ha fun h => ?_
  exact not_lt_of_le (le_of_lt h) h

/-! ## Values of numerals -/

theorem unpack_isNaN {spec : Format} {b : BitVec spec.numBits}
    (h : UnpackedFloat.unpackExponent b ≠ -1#_ ∨ UnpackedFloat.unpackMantissa b = 0#_) :
    (UnpackedFloat.unpack spec b).isNaN = false := by
  unfold UnpackedFloat.unpack
  dsimp only
  by_cases hexponent : UnpackedFloat.unpackExponent b = -1#_
  · rw [if_pos hexponent, if_pos (h.resolve_left (absurd hexponent))]
    rfl
  · rw [if_neg hexponent]
    by_cases hzero : UnpackedFloat.unpackExponent b = 0#_
    · rw [if_pos hzero]
      by_cases hmantissa : UnpackedFloat.unpackMantissa b = 0#_
      · rw [dif_pos hmantissa]
        rfl
      · rw [dif_neg hmantissa]
        rfl
    · rw [if_neg hzero]
      rfl

/-- Packing a number does not lose it. -/
theorem pack_isNaN {f : UnpackedFloat} (h : f.isNaN = false) :
    (Float.Model.pack f).isNaN = false := by
  refine @unpack_isNaN .binary64 _ ?_
  change UnpackedFloat.unpackExponent (UnpackedFloat.pack .binary64 f) ≠ -1#_ ∨
    UnpackedFloat.unpackMantissa (UnpackedFloat.pack .binary64 f) = 0#_
  -- an exponent of all ones is written for infinite values only, and those have an empty mantissa
  fun_cases UnpackedFloat.pack with
  | case1 => cases h
  | case2 | case4 => exact .inr (by simp [UnpackedFloat.packedInfinity])
  | case3 => exact .inr (by simp [UnpackedFloat.packedZero])
  | case5 s m e hm actualMantissaBits biasedExponent hfits =>
    have hlt : biasedExponent < 2 ^ 11 - 1 := by
      have hfits : ¬2 ^ 11 ≤ biasedExponent + 1 := hfits
      omega
    refine .inl ?_
    rw [UnpackedFloat.unpackExponent_packComponents, BitVec.neg_one_eq_allOnes,
      Ne, ← BitVec.toNat_inj, BitVec.toNat_ofNat, BitVec.toNat_allOnes]
    change biasedExponent % 2 ^ 11 ≠ 2 ^ 11 - 1
    omega
  | case6 =>
    refine .inl ?_
    rw [UnpackedFloat.unpackExponent_packComponents]
    decide

theorem round_isNaN (spec : Format) (sign : UnpackedFloat.Sign) (m : Nat) (e : Int)
    (accuracy : UnpackedFloat.Accuracy) :
    (UnpackedFloat.roundWithAccuracy spec sign m e accuracy).isNaN = false := by
  fun_cases UnpackedFloat.roundWithAccuracy <;> rfl

def isProper : UnpackedFloat → Bool
  | .finite .. => true
  | _ => false

theorem mul_isNaN {f g : UnpackedFloat} (hf : f.isNaN = false) (hg : isProper g) :
    (UnpackedFloat.mul .binary64 f g).isNaN = false := by
  cases g with
  | notANumber | infinity | zero => cases hg
  | finite =>
    cases f with
    | notANumber => cases hf
    | infinity | zero => rfl
    | finite => exact round_isNaN ..

theorem div_isNaN {f g : UnpackedFloat} (hf : f.isNaN = false) (hg : isProper g) :
    (UnpackedFloat.div .binary64 f g).isNaN = false := by
  cases g with
  | notANumber | infinity | zero => cases hg
  | finite =>
    cases f with
    | notANumber => cases hf
    | infinity | zero => rfl
    | finite => exact round_isNaN ..

theorem isProper_powerOfTen :
    ∀ p ∈ Float.exactlyRepresentablePowersOfTen, isProper p.toModel.unpack := by decide

theorem isNumber_ofUInt64 (n : UInt64) : IsNumber n.toFloat := by
  refine pack_isNaN ?_
  unfold UnpackedFloat.ofUInt64 UnpackedFloat.ofNat UnpackedFloat.ofInt UnpackedFloat.normalize
  split
  · exact round_isNaN ..
  · rfl
  · exact round_isNaN ..

theorem isNumber_neg {v : Float} (h : IsNumber v) : IsNumber (-v) := by
  refine pack_isNaN ?_
  have h : v.toModel.unpack.isNaN = false := h
  cases hv : v.toModel.unpack with
  | notANumber =>
    rw [hv] at h
    cases h
  | infinity | zero | finite => rfl

theorem isNumber_ofScientific (m : Nat) (s : Bool) (e : Nat) :
    IsNumber (Float.ofScientific m s e) := by
  unfold Float.ofScientific
  split
  · -- a whole number and a power of ten, both of them exact
    dsimp only
    split
    · exact pack_isNaN
        (div_isNaN (isNumber_ofUInt64 _) (isProper_powerOfTen _ (Array.getElem_mem _)))
    · exact pack_isNaN
        (mul_isNaN (isNumber_ofUInt64 _) (isProper_powerOfTen _ (Array.getElem_mem _)))
  · refine pack_isNaN ?_
    generalize (if s = true then Int.negOfNat e else Int.ofNat e) = x
    fun_cases UnpackedFloat.ofScientific with
    | case1 | case2 | case3 => rfl
    | case4 => exact mul_isNaN rfl rfl
    | case5 => exact div_isNaN rfl rfl

theorem Numeral.toFloat_isNumber (n : Numeral) : IsNumber n.toFloat := by
  unfold Numeral.toFloat
  dsimp only
  split
  · exact isNumber_ofScientific 0 false 0
  split
  · decide
  split
  · exact isNumber_ofScientific 0 false 0
  · exact isNumber_ofScientific _ _ _

end SignalPatch.Decimal
