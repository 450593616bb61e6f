import Tidal.Stepwise
import Tidal.Lib.Multiples

/-!
# Proofs: the tactus of patterns that are combined

`lcmr` is the least common multiple of fractions, and so is what `stack`, `fastCat` and `_lcmtactus` make of
the tactuses of their patterns.
-/

namespace Tidal

open Multiples Pattern AddSubgroup

variable {Γ α : Type}

/-! ## Multiples of fractions -/

theorem mem_zmultiples_iff_num {a q : ℚ} :
    q ∈ zmultiples a ↔ ∃ k : ℤ, q * a.den = k * a.num := by
  have hden : (a.den : ℚ) ≠ 0 := Nat.cast_ne_zero.mpr a.den_ne_zero
  rw [mem_zmultiples_iff]
  refine exists_congr fun k => ?_
  rw [zsmul_eq_mul, eq_comm, ← mul_left_inj' hden, mul_assoc, Rat.mul_den_eq_num]

/-- A multiple of `a`, scaled to a whole number by a multiple of the denominator of `a`, is a multiple of the
numerator of `a`. -/
theorem num_dvd_of_mem {a q : ℚ} (h : q ∈ zmultiples a) {g : ℕ} (hg : g ∣ a.den) {z : ℤ}
    (hz : q * g = z) : a.num ∣ z := by
  obtain ⟨k, hk⟩ := mem_zmultiples_iff_num.mp h
  obtain ⟨d, hd⟩ := hg
  have heq : z * d = k * a.num := by
    have : (z : ℚ) * d = k * a.num := by rw [← hz, ← hk, hd]; push_cast; ring
    exact_mod_cast this
  -- the numerator is coprime to every divisor of the denominator
  have hcop : IsCoprime a.num d := by
    refine a.isCoprime_num_den.of_isCoprime_of_dvd_right ⟨g, ?_⟩
    rw [hd, Nat.cast_mul, mul_comm]
  exact hcop.dvd_of_dvd_mul_right ⟨k, by rw [heq, mul_comm]⟩

theorem lcmr_mul_gcd (a b : ℚ) : lcmr a b * Nat.gcd a.den b.den = (Int.lcm a.num b.num : ℤ) := by
  have hg : (Nat.gcd a.den b.den : ℚ) ≠ 0 :=
    Nat.cast_ne_zero.mpr (Nat.gcd_pos_of_pos_left _ a.den_pos).ne'
  rw [lcmr, div_mul_cancel₀ _ hg, Int.cast_natCast]

theorem lcmr_comm (a b : ℚ) : lcmr a b = lcmr b a := by
  rw [lcmr, lcmr, Int.lcm_comm, Nat.gcd_comm]

theorem lcmr_mem_left (a b : ℚ) : lcmr a b ∈ zmultiples a := by
  obtain ⟨d, hd⟩ := Nat.gcd_dvd_left a.den b.den
  obtain ⟨k, hk⟩ := Int.dvd_lcm_left a.num b.num
  refine mem_zmultiples_iff_num.mpr ⟨k * d, ?_⟩
  have hden : (a.den : ℚ) = Nat.gcd a.den b.den * d := by exact_mod_cast hd
  have hlcm : ((Int.lcm a.num b.num : ℤ) : ℚ) = a.num * k := by exact_mod_cast hk
  rw [hden, ← mul_assoc, lcmr_mul_gcd, hlcm]
  push_cast
  ring

/-- The multiples of the fractions `a` and `b` are those of `lcmr a b`. -/
theorem meets_lcmr : MeetsMultiples lcmr := by
  intro a b
  refine le_antisymm (le_inf ?_ ?_) ?_
  · exact zmultiples_le_of_mem (lcmr_mem_left a b)
  · exact zmultiples_le_of_mem (lcmr_comm a b ▸ lcmr_mem_left b a)
  · rintro q ⟨ha, hb⟩
    -- by Bézout, the common divisor of the denominators makes `q` a whole number
    obtain ⟨z, hz⟩ : ∃ z : ℤ, q * Nat.gcd a.den b.den = z := by
      obtain ⟨k, hk⟩ := mem_zmultiples_iff_num.mp ha
      obtain ⟨j, hj⟩ := mem_zmultiples_iff_num.mp hb
      have hbez : (Nat.gcd a.den b.den : ℚ) =
          a.den * Nat.gcdA a.den b.den + b.den * Nat.gcdB a.den b.den := by
        exact_mod_cast Nat.gcd_eq_gcd_ab a.den b.den
      refine ⟨k * a.num * Nat.gcdA a.den b.den + j * b.num * Nat.gcdB a.den b.den, ?_⟩
      rw [hbez, mul_add, ← mul_assoc, ← mul_assoc, hk, hj]
      push_cast
      ring
    have hdvd : ((Int.lcm a.num b.num : ℕ) : ℤ) ∣ z :=
      Int.coe_lcm_dvd (num_dvd_of_mem ha (Nat.gcd_dvd_left _ _) hz)
        (num_dvd_of_mem hb (Nat.gcd_dvd_right _ _) hz)
    obtain ⟨k, hk⟩ := hdvd
    refine mem_zmultiples_iff.mpr ⟨k, ?_⟩
    have hg : (Nat.gcd a.den b.den : ℚ) ≠ 0 :=
      Nat.cast_ne_zero.mpr (Nat.gcd_pos_of_pos_left _ a.den_pos).ne'
    rw [zsmul_eq_mul, ← mul_left_inj' hg, mul_assoc, lcmr_mul_gcd, hz, hk]
    push_cast
    ring

theorem lcmr_pos (a b : ℚ) (ha : 0 < a) (hb : 0 < b) : 0 < lcmr a b := by
  have hlcm : 0 < Int.lcm a.num b.num :=
    Int.lcm_pos (Rat.num_pos.mpr ha).ne' (Rat.num_pos.mpr hb).ne'
  have hgcd : 0 < Nat.gcd a.den b.den := Nat.gcd_pos_of_pos_left _ a.den_pos
  unfold lcmr
  positivity

theorem mem_common_iff {l : List ℚ} {q : ℚ} : q ∈ common l ↔ ∀ x ∈ l, ∃ k : ℤ, q = k * x := by
  simp only [mem_common, mem_zmultiples_iff, zsmul_eq_mul, eq_comm]

/-! ## The tactus -/

theorem mapM_tactus {pats : List (Pattern Γ α)} {ts : List ℚ} (h : pats.map tactus = ts.map some) :
    pats.mapM tactus = some ts := by
  induction pats generalizing ts with
  | nil =>
    obtain rfl : ts = [] := by simpa using h.symm
    rfl
  | cons p pats ih =>
    cases ts with
    | nil => cases h
    | cons t ts =>
      obtain ⟨hp, hpats⟩ := List.cons.inj h
      rw [List.mapM_cons, hp, ih hpats]
      rfl

theorem lcmTactus_eq {pats : List (Pattern Γ α)} {t : ℚ} {ts : List ℚ}
    (h : pats.map tactus = (t :: ts).map some) : lcmTactus pats = some (ts.foldl lcmr t) := by
  rw [lcmTactus, mapM_tactus h]

theorem tactus_fastCat {pats : List (Pattern Γ α)} {t : ℚ} {ts : List ℚ}
    (h : pats.map tactus = (t :: ts).map some) (hlen : 2 ≤ pats.length) :
    (fastCat pats).tactus = some (ts.foldl lcmr t * pats.length) := by
  match pats, hlen with
  | p :: q :: ps, _ =>
    rw [fastCat]
    · rw [mapM_tactus h, lcmTactus_eq h]
      rfl
    · rintro _ ⟨⟩

/-- **Folding `lcmr` gives the least common multiple**, in whichever order. It is the tactus of a stack and,
for one pattern in each cycle, of `fastCat`. -/
theorem foldl_lcmr_isLeast {t : ℚ} {ts : List ℚ} (hpos : ∀ x ∈ t :: ts, 0 < x) :
    IsLeast {q | 0 < q ∧ ∀ x ∈ t :: ts, ∃ k : ℤ, q = k * x} (ts.foldl lcmr t) ∧
      (∀ u us, (u :: us).Perm (t :: ts) → us.foldl lcmr u = ts.foldl lcmr t) ∧
      ∀ {Γ α : Type} (pats : List (Pattern Γ α)), pats.map tactus = (t :: ts).map some →
        (stack pats).tactus = some (ts.foldl lcmr t) ∧ _lcmtactus pats = some (ts.foldl lcmr t) ∧
          (2 ≤ pats.length → (fastCat pats).tactus = some (ts.foldl lcmr t * pats.length)) := by
  have hfold : 0 < ts.foldl lcmr t := foldl_pos lcmr_pos hpos
  refine ⟨?_, fun u us hperm => ?_, fun pats h => ⟨lcmTactus_eq h, lcmTactus_eq h, tactus_fastCat h⟩⟩
  · have hleast := meets_lcmr.isLeast_foldl hfold
    simpa only [mem_common_iff] using hleast
  · have hpos' : ∀ x ∈ u :: us, 0 < x := fun x hx => hpos x (hperm.mem_iff.mp hx)
    exact meets_lcmr.foldl_perm hperm hfold (foldl_pos lcmr_pos hpos')

/-- Steps of `1/2`, `2/3` and `3/4` meet after six cycles. -/
theorem foldl_lcmr_isLeast_three :
    IsLeast {q : ℚ | 0 < q ∧ ∀ x ∈ [1 / 2, 2 / 3, 3 / 4], ∃ k : ℤ, q = k * x}
        ([2 / 3, 3 / 4].foldl lcmr (1 / 2)) ∧
      [2 / 3, 3 / 4].foldl lcmr (1 / 2) = 6 :=
  ⟨(foldl_lcmr_isLeast (by norm_num)).1, by with_unfolding_all decide⟩

end Tidal
