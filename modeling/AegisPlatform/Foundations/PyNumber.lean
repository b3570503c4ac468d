import Mathlib.Algebra.Order.Floor.Defs
import Mathlib.Algebra.Order.Floor.Ring
import Mathlib.Data.Rat.Floor

/-! # Python numbers

`round` and the `%` format of Python on exact rationals. Both round half to even. Rounding is
monotone in the sense the proofs need: it does not cross a number that is itself rounded.
-/

namespace AegisPlatform.Foundations
set_option autoImplicit false
set_option maxHeartbeats 250000

/-- The nearest integer, of two the even one. -/
def roundHalfEven (x : ℚ) : ℤ :=
  let below := ⌊x⌋
  let rest := x - below
  if rest < 1 / 2 then below
  else if 1 / 2 < rest then below + 1
  else if below % 2 = 0 then below
  else below + 1

/-- `int(x)`: towards zero. -/
def truncate (x : ℚ) : ℤ := if 0 ≤ x then ⌊x⌋ else ⌈x⌉

theorem lt_of_lt_truncate {t x : ℚ} (ht : 0 ≤ t) (h : t < truncate x) : t < x := by
  unfold truncate at h
  split at h
  · exact lt_of_lt_of_le h (Int.floor_le x)
  · next hneg =>
    have hceil : ⌈x⌉ ≤ 0 := Int.ceil_le.mpr (by exact_mod_cast (not_le.mp hneg).le)
    have hnot : ((⌈x⌉ : ℤ) : ℚ) ≤ 0 := by exact_mod_cast hceil
    exact absurd (ht.trans_lt h) (not_lt.mpr hnot)

/-- `round(x, digits)`. -/
def roundDigits (digits : ℕ) (x : ℚ) : ℚ := roundHalfEven (x * 10 ^ digits) / 10 ^ digits

/-- `f"{x:.0%}"`. -/
def percent (x : ℚ) : String := toString (roundHalfEven (x * 100)) ++ "%"

theorem roundHalfEven_cases (x : ℚ) :
    roundHalfEven x = ⌊x⌋ ∨ (roundHalfEven x = ⌊x⌋ + 1 ∧ (⌊x⌋ : ℚ) < x) := by
  have hup : ¬ x - ⌊x⌋ < 1 / 2 → (⌊x⌋ : ℚ) < x := by
    intro h
    have hhalf : 1 / 2 ≤ x - ⌊x⌋ := not_lt.mp h
    linarith
  unfold roundHalfEven
  dsimp only
  split
  · exact Or.inl rfl
  · next h =>
    split
    · exact Or.inr ⟨rfl, hup h⟩
    · split
      · exact Or.inl rfl
      · exact Or.inr ⟨rfl, hup h⟩

theorem le_roundHalfEven {n : ℤ} {x : ℚ} (h : (n : ℚ) ≤ x) : n ≤ roundHalfEven x := by
  have hfloor : n ≤ ⌊x⌋ := Int.le_floor.mpr h
  rcases roundHalfEven_cases x with heq | ⟨heq, -⟩
  · omega
  · omega

theorem roundHalfEven_le {n : ℤ} {x : ℚ} (h : x ≤ n) : roundHalfEven x ≤ n := by
  have hfloor : ⌊x⌋ ≤ n := by exact_mod_cast (Int.floor_le x).trans h
  rcases roundHalfEven_cases x with heq | ⟨heq, hlt⟩
  · omega
  · have hbelow : ⌊x⌋ < n := by exact_mod_cast hlt.trans_le h
    omega

theorem le_roundDigits {digits : ℕ} {n : ℤ} {x : ℚ} (h : (n : ℚ) / 10 ^ digits ≤ x) :
    (n : ℚ) / 10 ^ digits ≤ roundDigits digits x := by
  have hpos : (0 : ℚ) < 10 ^ digits := by positivity
  have hscaled : (n : ℚ) ≤ x * 10 ^ digits := (div_le_iff₀ hpos).mp h
  have hround : (n : ℚ) ≤ roundHalfEven (x * 10 ^ digits) := by
    exact_mod_cast le_roundHalfEven hscaled
  exact (div_le_div_iff_of_pos_right hpos).mpr hround

theorem roundDigits_le {digits : ℕ} {n : ℤ} {x : ℚ} (h : x ≤ (n : ℚ) / 10 ^ digits) :
    roundDigits digits x ≤ (n : ℚ) / 10 ^ digits := by
  have hpos : (0 : ℚ) < 10 ^ digits := by positivity
  have hscaled : x * 10 ^ digits ≤ n := (le_div_iff₀ hpos).mp h
  have hround : (roundHalfEven (x * 10 ^ digits) : ℚ) ≤ n := by
    exact_mod_cast roundHalfEven_le hscaled
  exact (div_le_div_iff_of_pos_right hpos).mpr hround

/-- Rounding to three digits does not cross a whole percentage. -/
theorem le_round_percent {n : ℤ} {x : ℚ} (h : (n : ℚ) / 100 ≤ x) :
    (n : ℚ) / 100 ≤ roundDigits 3 x := by
  have hscale : ((n * 10 : ℤ) : ℚ) / 10 ^ 3 = (n : ℚ) / 100 := by
    push_cast
    ring
  rw [← hscale] at h ⊢
  exact le_roundDigits h

theorem round_percent_le {n : ℤ} {x : ℚ} (h : x ≤ (n : ℚ) / 100) :
    roundDigits 3 x ≤ (n : ℚ) / 100 := by
  have hscale : ((n * 10 : ℤ) : ℚ) / 10 ^ 3 = (n : ℚ) / 100 := by
    push_cast
    ring
  rw [← hscale] at h ⊢
  exact roundDigits_le h

theorem roundDigits_nonneg {digits : ℕ} {x : ℚ} (h : 0 ≤ x) : 0 ≤ roundDigits digits x := by
  have hzero : ((0 : ℤ) : ℚ) / 10 ^ digits ≤ x := by simpa using h
  simpa using le_roundDigits hzero

theorem roundDigits_le_one {digits : ℕ} {x : ℚ} (h : x ≤ 1) : roundDigits digits x ≤ 1 := by
  have hpos : (0 : ℚ) < 10 ^ digits := by positivity
  have hone : (((10 : ℤ) ^ digits : ℤ) : ℚ) / 10 ^ digits = 1 := by
    push_cast
    exact div_self (ne_of_gt hpos)
  have hbound : x ≤ (((10 : ℤ) ^ digits : ℤ) : ℚ) / 10 ^ digits := by
    rw [hone]
    exact h
  have hle := roundDigits_le hbound
  rwa [hone] at hle

/-! ## Where rounding reaches a number -/

/-- Rounding reaches `k` from half below it on; at the half itself, if `k` is even. -/
theorem le_roundHalfEven_iff {k : ℤ} {x : ℚ} :
    k ≤ roundHalfEven x ↔ (k : ℚ) - 1 / 2 < x ∨ ((k : ℚ) - 1 / 2 = x ∧ k % 2 = 0) := by
  have hbelow := Int.floor_le x
  have habove := Int.lt_floor_add_one x
  rcases lt_trichotomy k (⌊x⌋ + 1) with hle | rfl | hgt
  · have hcast : (k : ℚ) ≤ ⌊x⌋ := by exact_mod_cast Int.lt_add_one_iff.mp hle
    have hround := le_roundHalfEven (hcast.trans hbelow)
    exact ⟨fun _ => Or.inl (by linarith), fun _ => hround⟩
  · -- the number in between: the three branches of the source
    have hcast : ((⌊x⌋ + 1 : ℤ) : ℚ) = ⌊x⌋ + 1 := by push_cast; rfl
    have hparity : (⌊x⌋ + 1) % 2 = 0 ↔ ¬ ⌊x⌋ % 2 = 0 := by omega
    rw [hcast, hparity]
    unfold roundHalfEven
    dsimp only
    split
    · next hless =>
      refine ⟨fun h => absurd h (by omega), ?_⟩
      rintro (hlt | ⟨heq, -⟩)
      · linarith
      · linarith
    · split
      · next hmore => exact ⟨fun _ => Or.inl (by linarith), fun _ => le_refl _⟩
      · next hless hmore =>
        have hhalf : (⌊x⌋ : ℚ) + 1 - 1 / 2 = x := by linarith
        split
        · next heven =>
          refine ⟨fun h => absurd h (by omega), ?_⟩
          rintro (hlt | ⟨-, hodd⟩)
          · linarith
          · exact absurd heven hodd
        · next hodd => exact ⟨fun _ => Or.inr ⟨hhalf, hodd⟩, fun _ => le_refl _⟩
  · have hcast : (⌊x⌋ : ℚ) + 2 ≤ k := by exact_mod_cast (by omega : ⌊x⌋ + 2 ≤ k)
    have hround : roundHalfEven x < k := by
      rcases roundHalfEven_cases x with heq | ⟨heq, -⟩
      · omega
      · omega
    refine ⟨fun h => absurd h (not_le.mpr hround), ?_⟩
    rintro (hlt | ⟨heq, -⟩)
    · linarith
    · linarith

/-- The number from which on rounding to `digits` digits reaches `t`. -/
def reach (digits : ℕ) (t : ℚ) : ℚ := (⌈t * 10 ^ digits⌉ - 1 / 2) / 10 ^ digits

theorem le_roundDigits_iff {digits : ℕ} {t x : ℚ} :
    t ≤ roundDigits digits x ↔
      reach digits t < x ∨ (reach digits t = x ∧ ⌈t * 10 ^ digits⌉ % 2 = 0) := by
  have hpos : (0 : ℚ) < 10 ^ digits := by positivity
  unfold roundDigits reach
  rw [le_div_iff₀ hpos, div_lt_iff₀ hpos, div_eq_iff (ne_of_gt hpos), ← le_roundHalfEven_iff,
    Int.ceil_le]

theorem roundDigits_mono {digits : ℕ} {x y : ℚ} (h : x ≤ y) :
    roundDigits digits x ≤ roundDigits digits y := by
  rcases le_roundDigits_iff.mp (le_refl (roundDigits digits x)) with hless | ⟨heq, heven⟩
  · exact le_roundDigits_iff.mpr (Or.inl (hless.trans_le h))
  · rcases (heq.le.trans h).lt_or_eq with hless | hsame
    · exact le_roundDigits_iff.mpr (Or.inl hless)
    · exact le_roundDigits_iff.mpr (Or.inr ⟨hsame, heven⟩)

/-- `0.5` is rounded to zero. -/
theorem roundDigits_pos_iff {x : ℚ} : 0 < roundDigits 3 x ↔ 1 / 2000 < x := by
  have hscale : (0 : ℚ) < 10 ^ 3 := by positivity
  have hone : (0 : ℤ) < roundHalfEven (x * 10 ^ 3) ↔ 1 ≤ roundHalfEven (x * 10 ^ 3) := by omega
  unfold roundDigits
  rw [div_pos_iff_of_pos_right hscale, Int.cast_pos, hone, le_roundHalfEven_iff]
  constructor
  · rintro (hless | ⟨-, hodd⟩)
    · norm_num at hless
      linarith
    · exact absurd hodd (by decide)
  · intro hless
    refine Or.inl ?_
    norm_num
    linarith

/-- A comparison with a number further away than rounding goes. -/
theorem le_roundDigits_iff_of_far {t x : ℚ} (h : 1 / 2000 < |x - t|) :
    t ≤ roundDigits 3 x ↔ t ≤ x := by
  have hceil := Int.ceil_lt_add_one (t * 10 ^ 3)
  have hle := Int.le_ceil (t * 10 ^ 3)
  have hreach : reach 3 t * 1000 = ⌈t * 10 ^ 3⌉ - 1 / 2 := by
    unfold reach
    norm_num
  norm_num at hceil hle hreach
  rw [le_roundDigits_iff]
  rcases lt_abs.mp h with hmore | hless
  · exact ⟨fun _ => by linarith, fun _ => Or.inl (by linarith)⟩
  · refine ⟨?_, fun hx => by linarith⟩
    rintro (hlt | ⟨heq, -⟩)
    · linarith
    · linarith

end AegisPlatform.Foundations
