import Tidal.Scales

/-!
# Proofs: scales

From one note to the next either the position in the scale goes up by one, or it is the last one and the
next note is the first of the octave above. Below zero this is the same, since the division rounds down. The
shift by octaves is an `Int`, and far enough from zero it wraps around.
-/

namespace Tidal

open Pattern

variable {Γ α : Type}

/-! ## Positions -/

section Positions

variable {l x : ℤ}

/-- A position that is not the last one goes up inside the octave. -/
theorem succ_inside (hl : 0 < l) (h : x % l + 1 < l) : (x + 1) % l = x % l + 1 ∧ (x + 1) / l = x / l := by
  have h0 := Int.emod_nonneg x hl.ne'
  have hx := Int.emod_add_mul_ediv x l
  have := (Int.ediv_emod_unique (a := x + 1) (r := x % l + 1) (q := x / l) hl).mpr ⟨by omega, by omega, h⟩
  exact ⟨this.2, this.1⟩

/-- After the last position comes the first one of the next octave. -/
theorem succ_across (hl : 0 < l) (h : ¬ x % l + 1 < l) :
    x % l = l - 1 ∧ (x + 1) % l = 0 ∧ (x + 1) / l = x / l + 1 := by
  have hlt := Int.emod_lt_of_pos x hl
  have hx := Int.emod_add_mul_ediv x l
  have hlast : x % l = l - 1 := by omega
  have := (Int.ediv_emod_unique (a := x + 1) (r := 0) (q := x / l + 1) hl).mpr
    ⟨by rw [mul_add]; omega, le_refl 0, hl⟩
  exact ⟨hlast, this.2, this.1⟩

end Positions

/-! ## Notes -/

section Notes

variable {s : Choices ℚ} {o x : ℤ}

theorem at_eq_get (c : Choices α) {n : ℤ} {i : ℕ} (hi : n % c.xs.length = i) (h : i < c.xs.length) :
    c.at n = c.xs.get ⟨i, h⟩ := by
  have : (n % c.xs.length).toNat = i := by omega
  simp only [Choices.at, this]

theorem length_xs_pos (c : Choices α) : 0 < (c.xs.length : ℤ) := by
  have := List.length_pos_iff.mpr c.nonempty
  omega

/-- The note of a number, with a shift by octaves that does not wrap around. -/
def exactNote (o : ℤ) (s : Choices ℚ) (x : ℤ) : ℚ := s.at x + (o * toScale'.octave s x : ℤ)

theorem noteInScale_eq (h : FitsInt (o * toScale'.octave s x)) : toScale'.noteInScale o s x = exactNote o s x := by
  rw [toScale'.noteInScale, MachineInt.mul, MachineInt.wrap_eq_iff.mpr h, exactNote]

/-- A note is lower than the next one. -/
theorem exactNote_lt_succ (hs : s.xs.Pairwise (· < ·))
    (ho : s.xs.getLast s.nonempty < s.xs.head s.nonempty + o) :
    exactNote o s x < exactNote o s (x + 1) := by
  have hl := length_xs_pos s
  have h0 := Int.emod_nonneg x hl.ne'
  obtain ⟨i, hi⟩ := Int.eq_ofNat_of_zero_le h0
  have hil : i < s.xs.length := by
    have := Int.emod_lt_of_pos x hl
    omega
  simp only [exactNote, toScale'.octave]
  rw [at_eq_get s hi hil]
  by_cases h : x % s.xs.length + 1 < s.xs.length
  · obtain ⟨hmod, hdiv⟩ := succ_inside hl h
    have hil' : i + 1 < s.xs.length := by omega
    have hi' : (x + 1) % s.xs.length = (i + 1 : ℕ) := by rw [hmod, hi, Nat.cast_succ]
    have hlt : s.xs.get ⟨i, hil⟩ < s.xs.get ⟨i + 1, hil'⟩ := List.pairwise_iff_get.mp hs _ _ (by simp)
    rw [at_eq_get s hi' hil', hdiv]
    linarith only [hlt]
  · obtain ⟨hlast, hmod, hdiv⟩ := succ_across hl h
    have hi' : i = s.xs.length - 1 := by omega
    rw [at_eq_get s (i := 0) hmod (by omega), hdiv]
    have hget : s.xs.get ⟨i, hil⟩ = s.xs.getLast s.nonempty := by
      subst hi'
      exact (List.getLast_eq_getElem s.nonempty).symm
    have hhead : s.xs.get ⟨0, by omega⟩ = s.xs.head s.nonempty := (List.head_eq_getElem s.nonempty).symm
    have hmul : o * (x / s.xs.length + 1) = o * (x / s.xs.length) + o := by rw [mul_add, mul_one]
    rw [hget, hhead, hmul]
    push_cast
    linarith only [ho]

/-- A scale further on is an octave higher, as far as the shift fits there. -/
theorem noteInScale_add_length_iff (h : FitsInt (o * toScale'.octave s x)) :
    toScale'.noteInScale o s (x + s.xs.length) = toScale'.noteInScale o s x + o ↔
      FitsInt (o * toScale'.octave s x + o) := by
  have hl := length_xs_pos s
  have hmod : (x + s.xs.length) % s.xs.length = x % s.xs.length := Int.add_emod_right x _
  have hdiv : toScale'.octave s (x + s.xs.length) = toScale'.octave s x + 1 := by
    rw [toScale'.octave, Int.add_ediv_of_dvd_right (dvd_refl _), Int.ediv_self hl.ne', toScale'.octave]
  have hat : s.at (x + s.xs.length) = s.at x := by simp only [Choices.at, hmod]
  rw [noteInScale_eq h, exactNote, toScale'.noteInScale, hat, hdiv, MachineInt.mul, mul_add, mul_one, add_assoc,
    add_right_inj, ← Int.cast_add, Int.cast_inj]
  exact MachineInt.wrap_eq_iff

theorem toScale'_eq (p : Pattern Γ ℤ) : toScale' o s.xs p = fmap (toScale'.noteInScale o s) p := by
  obtain ⟨xs, hxs⟩ := s
  cases xs with
  | nil => exact absurd rfl hxs
  | cons x xs => rfl

theorem getScale_note {table : List (String × List ℚ)} {scaleName : String}
    (h : table.lookup scaleName = some s.xs) (x : ℤ) :
    getScale.note table x scaleName = some (toScale'.noteInScale 12 s x) := by
  rw [getScale.note, h, Option.getD_some, getScale.noteInScale, atWrapped, dif_neg s.nonempty]
  rfl

end Notes

/-- The notes of a scale whose notes ascend and fit within its octave: they ascend over all numbers whose shift
by octaves is an `Int`, repeat an octave higher after each scale as far as it is one there too, and with octaves
of 12 are the notes of the scale in a table. -/
theorem notes_of_scale (o : ℤ) (s : Choices ℚ) (hs : s.xs.Pairwise (· < ·))
    (ho : s.xs.getLast s.nonempty < s.xs.head s.nonempty + o) :
    (∀ p : Pattern Γ ℤ, toScale' o s.xs p = fmap (toScale'.noteInScale o s) p) ∧
      StrictMonoOn (toScale'.noteInScale o s) {x | FitsInt (o * toScale'.octave s x)} ∧
      (∀ x, FitsInt (o * toScale'.octave s x) →
        (toScale'.noteInScale o s (x + s.xs.length) = toScale'.noteInScale o s x + o ↔
          FitsInt (o * toScale'.octave s x + o))) ∧
      (o = 12 → ∀ (table : List (String × List ℚ)) scaleName, table.lookup scaleName = some s.xs →
        ∀ x, getScale.note table x scaleName = some (toScale'.noteInScale o s x)) := by
  refine ⟨toScale'_eq, ?_, fun x => noteInScale_add_length_iff, ?_⟩
  · intro x hx y hy hxy
    have hmono : StrictMono (exactNote o s) := strictMono_int_of_lt_succ fun x => exactNote_lt_succ hs ho
    rw [noteInScale_eq hx, noteInScale_eq hy]
    exact hmono hxy
  · intro h12 table scaleName h x
    rw [h12]
    exact getScale_note h x

/-- The minor pentatonic scale, whose note -1 is the last one of the octave below: from there to the octave above
its notes ascend. -/
theorem notes_of_scale_minPent :
    toScale'.noteInScale 12 (⟨[0, 3, 5, 7, 10], by simp⟩ : Choices ℚ) (-1) <
        toScale'.noteInScale 12 (⟨[0, 3, 5, 7, 10], by simp⟩ : Choices ℚ) 7 ∧
      toScale'.noteInScale 12 (⟨[0, 3, 5, 7, 10], by simp⟩ : Choices ℚ) (-1 + 5) =
        toScale'.noteInScale 12 (⟨[0, 3, 5, 7, 10], by simp⟩ : Choices ℚ) (-1) + 12 ∧
      getScale.note (α := ℚ) [("minPent", [0, 3, 5, 7, 10])] (-1) "minPent" = some (-2) := by
  obtain ⟨-, h2, h3, h4⟩ := notes_of_scale (Γ := Unit) 12 ⟨[0, 3, 5, 7, 10], by simp⟩
    (by norm_num) (by norm_num)
  refine ⟨h2 (by decide) (by decide) (by decide), (h3 (-1) (by decide)).mpr (by decide), ?_⟩
  refine (h4 rfl [("minPent", [0, 3, 5, 7, 10])] "minPent" rfl (-1)).trans ?_
  have hmul : MachineInt.mul 12 (-1) = -12 := by decide
  have hat : (⟨[0, 3, 5, 7, 10], by simp⟩ : Choices ℚ).at (-1) = 10 := rfl
  have hoctave : toScale'.octave (⟨[0, 3, 5, 7, 10], by simp⟩ : Choices ℚ) (-1) = -1 := rfl
  rw [toScale'.noteInScale, hat, hoctave, hmul]
  norm_num

/-- A scale of one note in an octave of 2 ^ 62: the shift of its note 2 is 2 ^ 63, which is no `Int`, and the note
is below note 1. -/
theorem noteInScale_wraps :
    ((⟨[0], by simp⟩ : Choices ℚ).xs.Pairwise (· < ·) ∧
        (⟨[0], by simp⟩ : Choices ℚ).xs.getLast (by simp) < (⟨[0], by simp⟩ : Choices ℚ).xs.head (by simp) +
          (2 ^ 62 : ℤ)) ∧
      ¬ StrictMono (toScale'.noteInScale (2 ^ 62) (⟨[0], by simp⟩ : Choices ℚ)) ∧
      toScale'.noteInScale (2 ^ 62) (⟨[0], by simp⟩ : Choices ℚ) (1 + 1) ≠
        toScale'.noteInScale (2 ^ 62) (⟨[0], by simp⟩ : Choices ℚ) 1 + (2 ^ 62 : ℤ) := by
  have hfits : MachineInt.mul (2 ^ 62) 1 = 2 ^ 62 := by decide
  have hwraps : MachineInt.mul (2 ^ 62) 2 = -2 ^ 63 := by decide
  refine ⟨⟨by simp, by norm_num⟩, fun h => ?_, ?_⟩
  · have hlt := h (show (1 : ℤ) < 2 by decide)
    simp only [toScale'.noteInScale, toScale'.octave, Choices.at, List.length_singleton, Nat.cast_one,
      Int.ediv_one, hfits, hwraps] at hlt
    norm_num at hlt
  · norm_num [toScale'.noteInScale, toScale'.octave, Choices.at] at hfits hwraps ⊢
    norm_num [hfits, hwraps]

end Tidal
