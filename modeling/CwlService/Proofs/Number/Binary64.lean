import CwlService.Number.Binary64

/-! # Numbers by their value

A finite number is a whole number of units of the smallest positive one. Fields of a word
that give the same number of units are the same fields, so of two numbers that are the same
integer both are zeros or both are the same word. -/
namespace CwlService.Binary64

/-- How many times the smallest positive number a finite number is, whatever its sign. -/
def units (x : Binary64) : Nat :=
  if x.exponentField = 0 then x.fractionField
  else (x.fractionField + Nat.pow 2 52) * Nat.pow 2 (x.exponentField - 1)

theorem fractionField_lt (x : Binary64) : x.fractionField < Nat.pow 2 52 :=
  Nat.mod_lt _ (Nat.two_pow_pos 52)

variable {x y : Binary64}

theorem units_lt (h : x.exponentField < y.exponentField) : x.units < y.units := by
  have hx : x.fractionField < 2 ^ 52 := x.fractionField_lt
  have hy : y.exponentField ≠ 0 := by omega
  simp only [units, if_neg hy, Nat.pow_eq]
  split
  · calc x.fractionField < 2 ^ 52 := hx
      _ ≤ (y.fractionField + 2 ^ 52) * 1 := by omega
      _ ≤ (y.fractionField + 2 ^ 52) * 2 ^ (y.exponentField - 1) :=
        Nat.mul_le_mul_left _ (Nat.two_pow_pos _)
  · rename_i hx0
    calc (x.fractionField + 2 ^ 52) * 2 ^ (x.exponentField - 1)
        < 2 ^ 53 * 2 ^ (x.exponentField - 1) :=
          Nat.mul_lt_mul_of_pos_right (by omega) (Nat.two_pow_pos _)
      _ = 2 ^ 52 * 2 ^ x.exponentField := by
          rw [← Nat.pow_add, ← Nat.pow_add]
          congr 1
          omega
      _ ≤ 2 ^ 52 * 2 ^ (y.exponentField - 1) :=
          Nat.mul_le_mul_left _ (Nat.pow_le_pow_right (by omega) (by omega))
      _ ≤ (y.fractionField + 2 ^ 52) * 2 ^ (y.exponentField - 1) :=
          Nat.mul_le_mul_right _ (by omega)

theorem fields_eq_of_units_eq (h : x.units = y.units) :
    x.exponentField = y.exponentField ∧ x.fractionField = y.fractionField := by
  have he : x.exponentField = y.exponentField := by
    rcases Nat.lt_trichotomy x.exponentField y.exponentField with hlt | heq | hgt
    · have := units_lt hlt
      omega
    · exact heq
    · have := units_lt hgt
      omega
  refine ⟨he, ?_⟩
  simp only [units, he, Nat.pow_eq] at h
  split at h
  · exact h
  · have := Nat.eq_of_mul_eq_mul_right (Nat.two_pow_pos _) h
    omega

theorem bits_eq_of_fields_eq (he : x.exponentField = y.exponentField) (hf : x.fractionField = y.fractionField)
    (hs : x.isNegative = y.isNegative) : x.bits = y.bits := by
  have hx : x.bits.toNat < 2 ^ 64 := x.bits.toNat_lt
  have hy : y.bits.toNat < 2 ^ 64 := y.bits.toNat_lt
  simp only [isNegative, ge_iff_le, decide_eq_decide, UInt64.le_iff_toNat_le] at hs
  have hsign : (0x8000000000000000 : UInt64).toNat = 2 ^ 63 := rfl
  rw [hsign] at hs
  simp only [exponentField, fractionField, Nat.pow_eq] at he hf
  refine UInt64.toNat_inj.mp ?_
  omega

theorem isZero_iff_units : x.isZero = true ↔ x.units = 0 := by
  simp only [isZero, units, Nat.pow_eq, Bool.and_eq_true, beq_iff_eq]
  split
  · rename_i h
    simp [h]
  · rename_i h
    have hpos : 0 < (x.fractionField + 2 ^ 52) * 2 ^ (x.exponentField - 1) :=
      Nat.mul_pos (by omega) (Nat.two_pow_pos _)
    simp only [h, false_and, false_iff]
    omega

theorem units_of_natural? {m N q} (h : natural? m q = some N) (hq : -1074 ≤ q) :
    N * Nat.pow 2 1074 = m * Nat.pow 2 (q + 1074).toNat := by
  simp only [natural?, Nat.pow_eq] at h ⊢
  split at h
  · cases h
    rw [Nat.mul_assoc, ← Nat.pow_add]
    congr 2
    omega
  · split at h
    · rename_i hmod
      cases h
      have hsplit : (1074 : Nat) = (-q).toNat + (q + 1074).toNat := by omega
      have hpow : (2 : Nat) ^ 1074 = 2 ^ (-q).toNat * 2 ^ (q + 1074).toNat := by
        rw [← Nat.pow_add, ← hsplit]
      rw [hpow, ← Nat.mul_assoc, Nat.div_mul_cancel (Nat.dvd_of_mod_eq_zero hmod)]
    · cases h

theorem units_eq_magnitude (x : Binary64) :
    -1074 ≤ x.magnitude.2 ∧ x.units = x.magnitude.1 * Nat.pow 2 (x.magnitude.2 + 1074).toNat := by
  unfold magnitude units
  split
  · simp
  · refine ⟨by omega, ?_⟩
    congr 2
    omega

theorem units_of_toInt? {n} (h : x.toInt? = some n) :
    n.natAbs * Nat.pow 2 1074 = x.units ∧ x.exponentField ≠ 2047 ∧
      (n ≠ 0 → (x.isNegative = true ↔ n < 0)) := by
  unfold toInt? at h
  split at h
  · cases h
  rename_i hfinite
  obtain ⟨N, hN, hn⟩ := Option.map_eq_some_iff.mp h
  have habs : n.natAbs = N := by
    rw [← hn]
    split <;> omega
  obtain ⟨hq, hunits⟩ := x.units_eq_magnitude
  refine ⟨?_, hfinite, ?_⟩
  · rw [habs, hunits, units_of_natural? hN hq]
  · intro hne
    split at hn
    · rename_i hneg
      simp only [hneg, true_iff]
      omega
    · rename_i hneg
      simp only [hneg, Bool.false_eq_true, false_iff]
      omega

theorem not_isNaN_of_finite (h : x.exponentField ≠ 2047) : x.isNaN = false := by
  simp [isNaN, h]

theorem same_of_toInt? {n} (hx : x.toInt? = some n) (hy : y.toInt? = some n) : x.same y = true := by
  obtain ⟨hux, hfx, hsx⟩ := units_of_toInt? hx
  obtain ⟨huy, hfy, hsy⟩ := units_of_toInt? hy
  have hunits : x.units = y.units := hux.symm.trans huy
  simp only [same, not_isNaN_of_finite hfx, not_isNaN_of_finite hfy, Bool.not_false, Bool.true_and,
    Bool.or_eq_true, Bool.and_eq_true, beq_iff_eq]
  by_cases hn : n = 0
  · right
    rw [isZero_iff_units, isZero_iff_units, ← hux, ← huy, hn]
    simp
  · left
    obtain ⟨he, hf⟩ := fields_eq_of_units_eq hunits
    refine bits_eq_of_fields_eq he hf ?_
    rw [Bool.eq_iff_iff, hsx hn, hsy hn]

theorem toInt?_of_same (h : x.same y = true) : x.toInt? = y.toInt? := by
  simp only [same, Bool.and_eq_true, Bool.or_eq_true, beq_iff_eq] at h
  obtain ⟨_, hbits | ⟨hx, hy⟩⟩ := h
  · obtain ⟨bits⟩ := x
    obtain ⟨bits'⟩ := y
    cases hbits
    rfl
  · have hzero : ∀ z : Binary64, z.isZero = true → z.toInt? = some 0 := by
      intro z hz
      simp only [isZero, Bool.and_eq_true, beq_iff_eq] at hz
      simp [toInt?, magnitude, natural?, hz.1, hz.2]
    rw [hzero x hx, hzero y hy]

theorem same_comm (x y : Binary64) : x.same y = y.same x := by
  simp only [same]
  rw [Bool.and_comm (!x.isNaN), Bool.and_comm x.isZero, Bool.beq_comm]

theorem same_trans {z} (h : x.same y = true) (h' : y.same z = true) : x.same z = true := by
  simp only [same, Bool.and_eq_true, Bool.or_eq_true, beq_iff_eq, Bool.not_eq_true'] at h h' ⊢
  obtain ⟨⟨hx, hy⟩, hxy⟩ := h
  obtain ⟨⟨_, hz⟩, hyz⟩ := h'
  refine ⟨⟨hx, hz⟩, ?_⟩
  have hzero : ∀ {a b : Binary64}, a.bits = b.bits → a.isZero = b.isZero := by
    rintro ⟨a⟩ ⟨b⟩ hab
    cases hab
    rfl
  rcases hxy with hxy | ⟨hx0, hy0⟩ <;> rcases hyz with hyz | ⟨hy0', hz0⟩
  · exact .inl (hxy.trans hyz)
  · exact .inr ⟨(hzero hxy).trans hy0', hz0⟩
  · exact .inr ⟨hx0, (hzero hyz).symm.trans hy0⟩
  · exact .inr ⟨hx0, hz0⟩

end CwlService.Binary64
