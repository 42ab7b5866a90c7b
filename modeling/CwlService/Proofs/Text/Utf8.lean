import CwlService.Text.Utf8

/-! # Texts are read from their bytes

The bytes of a character lead the reader through the character and nothing after it, so the
bytes of a text are read as the text again. -/
namespace CwlService.Text

open List

theorem bytes_append (s t : String) : bytes (s ++ t) = bytes s ++ bytes t := by
  simp [bytes]

/-! ## One byte -/

theorem toNat_toUInt8 {n} (h : n < 256) : n.toUInt8.toNat = n := Nat.mod_eq_of_lt h

theorem decodeFrom_single {n} (h : n < 128) (rest : List UInt8) :
    decodeFrom none (n.toUInt8 :: rest) = some (Char.ofNat n) :: decodeFrom none rest := by
  have hstart : startByte n.toUInt8 = .inl (Char.ofNat n) := by
    rw [startByte, toNat_toUInt8 (by omega), if_pos h]
  simp only [decodeFrom, hstart]

theorem decodeFrom_first {n} (h : n < 256) {low high left}
    (hfollow : follow n = some (low, high, left)) (rest) : decodeFrom none (n.toUInt8 :: rest) =
      decodeFrom (some ⟨if left == 1 then n - 0xC0 else if left == 2 then n - 0xE0 else n - 0xF0,
        left, low, high⟩) rest := by
  have hlarge : ¬ n < 128 := by
    intro hsmall
    have hnone : follow n = none := by
      unfold follow
      simp only [Bool.and_eq_true, decide_eq_true_eq, beq_iff_eq]
      repeat rw [if_neg (by omega)]
    rw [hnone] at hfollow
    cases hfollow
  have hstart : startByte n.toUInt8 = .inr (some ⟨if left == 1 then n - 0xC0
      else if left == 2 then n - 0xE0 else n - 0xF0, left, low, high⟩) := by
    rw [startByte, toNat_toUInt8 h, if_neg hlarge, hfollow]
    rfl
  simp only [decodeFrom, hstart]

theorem decodeFrom_middle {value left low high n} (hlow : low ≤ n) (hhigh : n ≤ high) (h : n < 256)
    (rest : List UInt8) : decodeFrom (some ⟨value, left + 2, low, high⟩) (n.toUInt8 :: rest) =
      decodeFrom (some ⟨value * 64 + (n - 0x80), left + 1, 0x80, 0xBF⟩) rest := by
  simp [decodeFrom, toNat_toUInt8 h, hlow, hhigh]

theorem decodeFrom_last {value low high n} (hlow : low ≤ n) (hhigh : n ≤ high) (h : n < 256)
    (rest : List UInt8) : decodeFrom (some ⟨value, 1, low, high⟩) (n.toUInt8 :: rest) =
      some (Char.ofNat (value * 64 + (n - 0x80))) :: decodeFrom none rest := by
  simp [decodeFrom, toNat_toUInt8 h, hlow, hhigh]

/-! ## Characters -/

theorem follow_two {n} (hlow : 0x80 ≤ n) (hhigh : n < 0x800) :
    follow (0xC0 + n / 64) = some (0x80, 0xBF, 1) := by
  unfold follow
  rw [if_pos (by simp only [Bool.and_eq_true, decide_eq_true_eq]; omega)]

/-- The second byte of a character of three lies in the range that the first one gives: no
character is written too long, and none is a half of a surrogate pair. -/
theorem follow_three {n} (hlow : 0x800 ≤ n) (hhigh : n < 0x10000)
    (hvalid : n < 0xD800 ∨ 0xDFFF < n) : ∃ low high, follow (0xE0 + n / 4096) = some (low, high, 2) ∧
      low ≤ 0x80 + n / 64 % 64 ∧ 0x80 + n / 64 % 64 ≤ high := by
  unfold follow
  simp only [Bool.and_eq_true, decide_eq_true_eq, beq_iff_eq]
  rw [if_neg (by omega)]
  by_cases hfirst : 0xE0 + n / 4096 = 0xE0
  · exact ⟨0xA0, 0xBF, if_pos hfirst, by omega, by omega⟩
  rw [if_neg hfirst]
  by_cases hhalves : 0xE0 + n / 4096 = 0xED
  · exact ⟨0x80, 0x9F, if_pos hhalves, by omega, by omega⟩
  rw [if_neg hhalves]
  exact ⟨0x80, 0xBF, if_pos (by omega), by omega, by omega⟩

/-- The same for a character of four bytes, and none lies beyond the last plane. -/
theorem follow_four {n} (hlow : 0x10000 ≤ n) (hhigh : n < 0x110000) :
    ∃ low high, follow (0xF0 + n / 262144) = some (low, high, 3) ∧
      low ≤ 0x80 + n / 4096 % 64 ∧ 0x80 + n / 4096 % 64 ≤ high := by
  unfold follow
  simp only [Bool.and_eq_true, decide_eq_true_eq, beq_iff_eq]
  rw [if_neg (by omega), if_neg (by omega), if_neg (by omega), if_neg (by omega)]
  by_cases hfirst : 0xF0 + n / 262144 = 0xF0
  · exact ⟨0x90, 0xBF, if_pos hfirst, by omega, by omega⟩
  rw [if_neg hfirst]
  by_cases hmiddle : 0xF1 ≤ 0xF0 + n / 262144 ∧ 0xF0 + n / 262144 ≤ 0xF3
  · exact ⟨0x80, 0xBF, if_pos hmiddle, by omega, by omega⟩
  rw [if_neg hmiddle]
  exact ⟨0x80, 0x8F, if_pos (by omega), by omega, by omega⟩

theorem decodeFrom_charBytes (c : Char) (rest : List UInt8) :
    decodeFrom none (charBytes c ++ rest) = some c :: decodeFrom none rest := by
  have hvalid : c.toNat < 0xD800 ∨ 0xDFFF < c.toNat ∧ c.toNat < 0x110000 := c.valid
  have hchar : Char.ofNat c.toNat = c := Char.ofNat_toNat c
  generalize hn : c.toNat = n at hvalid hchar
  unfold charBytes
  rw [hn]
  dsimp only
  by_cases hone : n < 0x80
  · rw [if_pos hone, singleton_append, decodeFrom_single hone, hchar]
  rw [if_neg hone]
  by_cases htwo : n < 0x800
  · have hvalue : (0xC0 + n / 64 - 0xC0) * 64 + (0x80 + n % 64 - 0x80) = n := by omega
    rw [if_pos htwo, cons_append, decodeFrom_first (by omega) (follow_two (by omega) htwo), singleton_append]
    simp only [BEq.rfl, if_true]
    rw [decodeFrom_last (by omega) (by omega) (by omega), hvalue, hchar]
  rw [if_neg htwo]
  by_cases hthree : n < 0x10000
  · obtain ⟨low, high, hfollow, hlow, hhigh⟩ := follow_three (by omega) hthree (by omega)
    have hvalue : ((0xE0 + n / 4096 - 0xE0) * 64 + (0x80 + n / 64 % 64 - 0x80)) * 64 +
        (0x80 + n % 64 - 0x80) = n := by omega
    rw [if_pos hthree, cons_append, decodeFrom_first (by omega) hfollow, cons_append,
      decodeFrom_middle hlow hhigh (by omega), singleton_append,
      decodeFrom_last (by omega) (by omega) (by omega)]
    simp only [Nat.reduceBEq, Bool.false_eq_true, if_false, if_true]
    rw [hvalue, hchar]
  rw [if_neg hthree]
  obtain ⟨low, high, hfollow, hlow, hhigh⟩ := follow_four (by omega) (by omega : n < 0x110000)
  have hvalue : (((0xF0 + n / 262144 - 0xF0) * 64 + (0x80 + n / 4096 % 64 - 0x80)) * 64 +
      (0x80 + n / 64 % 64 - 0x80)) * 64 + (0x80 + n % 64 - 0x80) = n := by omega
  rw [cons_append, decodeFrom_first (by omega) hfollow, cons_append,
    decodeFrom_middle hlow hhigh (by omega), cons_append,
    decodeFrom_middle (by omega) (by omega) (by omega), singleton_append,
    decodeFrom_last (by omega) (by omega) (by omega)]
  simp only [Nat.reduceBEq, Bool.false_eq_true, if_false]
  rw [hvalue, hchar]

theorem decodeFrom_bytes (s : String) : decodeFrom none (bytes s) = s.toList.map some := by
  rw [bytes]
  induction s.toList with
  | nil => rfl
  | cons c cs ih => rw [flatMap_cons, decodeFrom_charBytes, ih, map_cons]

theorem ofBytes?_bytes (s : String) : ofBytes? (bytes s) = some s := by
  have hall : (s.toList.map some).mapM id = some s.toList := by
    induction s.toList with
    | nil => rfl
    | cons c cs ih => simp [ih]
  rw [ofBytes?, decodeFrom_bytes, hall, Option.map_some, String.ofList_toList]

theorem ofBytes_bytes (s : String) : ofBytes (bytes s) = s := by
  rw [ofBytes, decodeFrom_bytes, map_map]
  exact (congrArg String.ofList (map_id _)).trans String.ofList_toList

end CwlService.Text

/-! # Texts of seven bits

A text in ASCII has as many bytes as characters. -/
namespace CwlService.Text

/-- Characters of seven bits only. -/
def IsAscii (cs : List Char) : Prop := ∀ c ∈ cs, c.toNat < 128

instance (cs : List Char) : Decidable (IsAscii cs) := List.decidableBAll _ cs

@[simp] theorem isAscii_nil : IsAscii [] := fun _ h => nomatch h

@[simp] theorem isAscii_cons {c cs} :
    IsAscii (c :: cs) ↔ c.toNat < 128 ∧ IsAscii cs := List.forall_mem_cons

@[simp] theorem isAscii_append {cs ds} :
    IsAscii (cs ++ ds) ↔ IsAscii cs ∧ IsAscii ds := List.forall_mem_append

/-! ## Bytes -/

theorem charBytes_of_lt {c} (h : c.toNat < 128) : charBytes c = [c.toNat.toUInt8] := by
  unfold charBytes
  exact if_pos h

theorem flatMap_charBytes {cs} (h : IsAscii cs) :
    cs.flatMap charBytes = cs.map fun c => c.toNat.toUInt8 := by
  induction cs with
  | nil => rfl
  | cons c cs ih =>
    obtain ⟨hc, hcs⟩ := isAscii_cons.mp h
    rw [List.flatMap_cons, charBytes_of_lt hc, ih hcs]
    rfl

theorem length_bytes {s} (h : IsAscii s.toList) : (bytes s).length = s.length := by
  rw [bytes, flatMap_charBytes h, List.length_map, String.length_toList]

end CwlService.Text
