import CwlService.Number.Reading
import CwlService.Proofs.Text.Utf8
import CwlService.Text.Quoted

/-! # Digits

Numbers are read from the digits that they are written with, in base ten and in base
sixteen. -/
namespace CwlService

open List

variable {cs : List Char}

theorem Text.strip_append {blanks : List Char} (hcs : ∀ c ∈ cs, isBlank c = false)
    (hblanks : ∀ c ∈ blanks, isBlank c = true) : strip (cs ++ blanks) = cs := by
  have hdrop : ∀ ds : List Char, (∀ c ∈ ds, isBlank c = false) → ds.dropWhile isBlank = ds := by
    intro ds hds
    cases ds with
    | nil => rfl
    | cons d ds => exact dropWhile_cons_of_neg (by simp [hds d])
  have hright : stripRight (cs ++ blanks) = cs := by
    rw [stripRight, reverse_append, dropWhile_append_of_pos fun c hc => hblanks c (mem_reverse.mp hc),
      hdrop _ fun c hc => hcs c (mem_reverse.mp hc), reverse_reverse]
  cases cs with
  | nil =>
    have hnone : blanks.dropWhile isBlank = [] := by
      rw [← append_nil blanks]
      exact dropWhile_append_of_pos hblanks
    rw [strip, nil_append, hnone]
    rfl
  | cons c cs =>
    rw [strip, cons_append, dropWhile_cons_of_neg (by simp [hcs c]), ← cons_append, hright]

namespace Number

variable {base d n : Nat} {c : Char}

theorem digitValue_digitChar (h : d < 16) : digitValue d.digitChar = some d := by
  have hall : ∀ d, d < 16 → digitValue (Nat.digitChar d) = some d := by decide
  exact hall d h

theorem digitChar_lt (h : d < 16) : d.digitChar.toNat < 128 := by
  have hall : ∀ d, d < 16 → (Nat.digitChar d).toNat < 128 := by decide
  exact hall d h

theorem natural?_singleton (hd : d < base) (hbase : base ≤ 16) : natural? base [d.digitChar] = some d := by
  simp [natural?, digitValue_digitChar (Nat.lt_of_lt_of_le hd hbase), hd]

theorem natural?_concat (hd : d < base) (hbase : base ≤ 16) (h : natural? base cs = some n) :
    natural? base (cs ++ [d.digitChar]) = some (n * base + d) := by
  cases cs with
  | nil => simp [natural?] at h
  | cons c cs =>
    simp only [natural?, cons_append] at h ⊢
    rw [← cons_append, foldl_append, h]
    simp [digitValue_digitChar (Nat.lt_of_lt_of_le hd hbase), hd]

/-! ## Base ten -/

theorem natural?_toDigits (n : Nat) : natural? 10 (Nat.toDigits 10 n) = some n := by
  induction n using Nat.strongRecOn with
  | ind n ih =>
    by_cases h : n < 10
    · rw [Nat.toDigits_of_lt_base h]
      exact natural?_singleton h (by decide)
    · rw [Nat.toDigits_of_base_le (by decide) (by omega),
        natural?_concat (by omega) (by decide) (ih (n / 10) (by omega))]
      congr 1
      omega

theorem toNat_of_isDigit (h : c.isDigit = true) : 48 ≤ c.toNat ∧ c.toNat ≤ 57 := by
  simpa [Char.isDigit, UInt32.le_iff_toNat_le] using h

theorem isDigit_toDigits : ∀ c ∈ Nat.toDigits 10 n, c.isDigit = true :=
  fun _ hc => Nat.isDigit_of_mem_toDigits (by decide) (by decide) hc

theorem isAscii_toDigits (n : Nat) : Text.IsAscii (Nat.toDigits 10 n) := by
  intro c hc
  have hrange := toNat_of_isDigit (isDigit_toDigits c hc)
  omega

theorem head?_toDigits (h : n ≠ 0) : (Nat.toDigits 10 n).head? ≠ some '0' := by
  induction n using Nat.strongRecOn with
  | ind n ih =>
    by_cases hn : n < 10
    · have hall : ∀ d, d < 10 → d ≠ 0 → Nat.digitChar d ≠ '0' := by decide
      rw [Nat.toDigits_of_lt_base hn]
      simpa using hall n hn h
    · have hrest := ih (n / 10) (by omega) (by omega)
      obtain ⟨c, cs, hcs⟩ := exists_cons_of_ne_nil (Nat.toDigits_ne_nil (n := n / 10) (b := 10))
      rw [Nat.toDigits_of_base_le (by decide) (by omega), hcs]
      rwa [hcs] at hrest

/-! ### In a text -/

theorem isBlank_of_isDigit (h : c.isDigit = true) : Text.isBlank c = false := by
  have hrange := toNat_of_isDigit h
  simp [Text.isBlank]
  omega

theorem plainDigit_of_isDigit (h : c.isDigit = true) : Text.plainDigit c = c := by
  obtain ⟨hlow, hhigh⟩ := toNat_of_isDigit h
  have hfind : Text.zeroDigits.find? (fun z => z ≤ c.toNat && c.toNat < z + 10) = some 48 := by
    have hhigh : c.toNat < 58 := by omega
    simp [Text.zeroDigits, hlow, hhigh]
  have hn : 48 + (c.toNat - 48) = c.toNat := by omega
  simp only [Text.plainDigit, hfind, hn, Char.ofNat_toNat]

theorem sign_of_isDigit (h : ∀ c ∈ cs, c.isDigit = true) : sign cs = (false, cs) := by
  unfold sign
  split
  · exact absurd (h '-' mem_cons_self) (by decide)
  · exact absurd (h '+' mem_cons_self) (by decide)
  · rfl

theorem dropBars_of_isDigit (h : ∀ c ∈ cs, c.isDigit = true) : dropBars cs = some cs := by
  have hbar : ¬ '_' ∈ cs := fun hmem => absurd (h '_' hmem) (by decide)
  fun_induction dropBars cs with
  | case1 => rfl
  | case2 => simp at hbar
  | case3 => simp at hbar
  | case4 => simp at hbar
  | case5 => simp_all
  | case6 c rest hne hne' hc ih => simp_all

theorem integer?_toDigits (h : (Nat.toDigits 10 n).length ≤ maxDigits) :
    integer? (String.ofList (Nat.toDigits 10 n)) = some (n : Int) := by
  have hdigits := isDigit_toDigits (n := n)
  have hstrip : Text.strip (Nat.toDigits 10 n) = Nat.toDigits 10 n := by
    simpa using Text.strip_append (fun c hc => isBlank_of_isDigit (hdigits c hc)) (forall_mem_nil _)
  have hplain : (Nat.toDigits 10 n).map Text.plainDigit = Nat.toDigits 10 n :=
    (map_congr_left fun c hc => plainDigit_of_isDigit (hdigits c hc)).trans (map_id _)
  simp [integer?, hstrip, hplain, sign_of_isDigit hdigits, dropBars_of_isDigit hdigits, Nat.not_lt.mpr h,
    natural?_toDigits]

/-! ## Base sixteen -/

theorem natural?_hexDigits (width n : Nat) :
    natural? 16 (Text.hexDigits (width + 1) n) = some (n % Nat.pow 16 (width + 1)) := by
  induction width generalizing n with
  | zero => exact natural?_singleton (Nat.mod_lt _ (by decide)) (by decide)
  | succ width ih =>
    rw [Text.hexDigits, natural?_concat (Nat.mod_lt _ (by decide)) (by decide) (ih (n / 16))]
    have hpow : Nat.pow 16 (width + 1 + 1) = 16 * Nat.pow 16 (width + 1) := Nat.pow_succ'
    rw [hpow, Nat.mod_mul]
    congr 1
    omega

theorem isAscii_hexDigits (width n : Nat) : Text.IsAscii (Text.hexDigits width n) := by
  induction width generalizing n with
  | zero => exact Text.isAscii_nil
  | succ width ih => simp [Text.hexDigits, ih, digitChar_lt (Nat.mod_lt n (by decide))]

end Number
end CwlService
