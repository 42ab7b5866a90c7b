import CwlService.Json.Read
import CwlService.Json.Write
import CwlService.Proofs.Number.Digits

/-! # Quoted texts

Reading a quoted text gives the text back, and a quoted text is in ASCII. The one thing that
is not kept are two halves of a surrogate pair, in their order and next to each other, which
are read as the character of the pair. -/
namespace CwlService

open List

/-! ## Halves -/

namespace Text

/-- Whether two characters stand for the halves of one pair. -/
def joins (a b : Char) : Bool :=
  (half? a).any (· < 0xDC00) && (half? b).any (0xDC00 ≤ ·)

/-- Whether no two neighbours stand for the halves of one pair. -/
def isWhole : List Char → Bool
  | a :: b :: rest => !joins a b && isWhole (b :: rest)
  | _ => true

theorem codeOf_cases (c) : (half? c = none ∧ codeOf c = c.toNat ∧ isHalf (codeOf c) = false) ∨
      (half? c = some (codeOf c) ∧ c = ofHalf (codeOf c) ∧ isHalf (codeOf c) = true) := by
  have hvalid : c.toNat < 0xD800 ∨ 0xDFFF < c.toNat ∧ c.toNat < 0x110000 := c.valid
  by_cases h : 0xD800 + halfShift ≤ c.toNat
  · have hhalf : half? c = some (c.toNat - halfShift) := if_pos h
    have hcode : codeOf c = c.toNat - halfShift := by rw [codeOf, hhalf, Option.getD_some]
    unfold halfShift at h hcode
    refine .inr ⟨by rw [hhalf, hcode]; rfl, ?_, ?_⟩
    · rw [hcode, ofHalf, halfShift, Nat.sub_add_cancel (by omega), Char.ofNat_toNat]
    · simp only [isHalf, hcode, Bool.and_eq_true, decide_eq_true_eq]
      omega
  · have hhalf : half? c = none := if_neg h
    have hcode : codeOf c = c.toNat := by rw [codeOf, hhalf, Option.getD_none]
    refine .inl ⟨hhalf, hcode, ?_⟩
    simp only [isHalf, hcode, Bool.and_eq_false_iff, decide_eq_false_iff_not]
    omega

theorem half?_of_isHalf {c} (h : isHalf (codeOf c) = true) : half? c = some (codeOf c) := by
  obtain ⟨_, _, hhalf⟩ | ⟨hhalf, _, _⟩ := codeOf_cases c
  · rw [hhalf] at h
    cases h
  · exact hhalf

theorem toNat_of_le_codeOf {c} (h : 0x10000 ≤ codeOf c) :
    c.toNat = codeOf c ∧ codeOf c < 0x110000 := by
  have hvalid : c.toNat < 0xD800 ∨ 0xDFFF < c.toNat ∧ c.toNat < 0x110000 := c.valid
  obtain ⟨_, hcode, _⟩ | ⟨_, _, hhalf⟩ := codeOf_cases c
  · omega
  · simp only [isHalf, Bool.and_eq_true, decide_eq_true_eq] at hhalf
    omega

theorem charOf_codeOf (c : Char) : charOf (codeOf c) = c := by
  obtain ⟨_, hcode, hhalf⟩ | ⟨_, hc, hhalf⟩ := codeOf_cases c
  · rw [charOf, hhalf, if_neg Bool.false_ne_true, hcode, Char.ofNat_toNat]
  · rw [charOf, hhalf, if_pos rfl, ← hc]

theorem toNat_of_codeOf_lt {c} (h : codeOf c < 0xD800) : c.toNat = codeOf c := by
  obtain ⟨_, hcode, _⟩ | ⟨_, _, hhalf⟩ := codeOf_cases c
  · exact hcode.symm
  · simp only [isHalf, Bool.and_eq_true, decide_eq_true_eq] at hhalf
    omega

end Text

namespace Json

/-! ## Escapes -/

theorem shortEscape_letter {c e} (h : letters.lookup c = some e) :
    shortEscape e = some c ∧ e ≠ 'u' ∧ e.toNat < 128 := by
  have hall : ∀ p ∈ letters, shortEscape p.2 = some p.1 ∧ p.2 ≠ 'u' ∧ p.2.toNat < 128 := by decide
  obtain ⟨before, after, hletters, _⟩ := lookup_eq_some_iff.mp h
  exact hall (c, e) (by rw [hletters]; exact mem_append_right _ mem_cons_self)

/-- How a character is escaped: by a letter, not at all, by its number, or by the halves of a
pair. -/
theorem escape_cases (c : Char) :
    (∃ e, escape c = ['\\', e] ∧ shortEscape e = some c ∧ e ≠ 'u' ∧ e.toNat < 128) ∨
    (escape c = [c] ∧ c ≠ '\x22' ∧ c ≠ '\\' ∧ 32 ≤ c.toNat ∧ c.toNat < 127) ∨
    (escape c = unicode (Text.codeOf c) ∧ Text.codeOf c < 0x10000) ∨
    (escape c = unicode (0xD800 + (Text.codeOf c - 0x10000) / 0x400) ++
        unicode (0xDC00 + (Text.codeOf c - 0x10000) % 0x400) ∧ 0x10000 ≤ Text.codeOf c) := by
  unfold escape
  cases hletter : letters.lookup c with
  | some e => exact .inl ⟨e, rfl, shortEscape_letter hletter⟩
  | none =>
    have hne := lookup_eq_none_iff.mp hletter
    dsimp only
    by_cases hplain : (32 ≤ Text.codeOf c && Text.codeOf c < 127) = true
    · rw [if_pos hplain]
      simp only [Bool.and_eq_true, decide_eq_true_eq] at hplain
      rw [← Text.toNat_of_codeOf_lt (by omega)] at hplain
      have hquote := hne ('\x22', '\x22') (by decide)
      have hslash := hne ('\\', '\\') (by decide)
      exact .inr (.inl ⟨rfl, by simpa using hquote, by simpa using hslash, hplain⟩)
    · rw [if_neg hplain]
      by_cases hlow : Text.codeOf c < 0x10000
      · rw [if_pos hlow]
        exact .inr (.inr (.inl ⟨rfl, hlow⟩))
      · rw [if_neg hlow]
        exact .inr (.inr (.inr ⟨rfl, Nat.le_of_not_lt hlow⟩))

theorem escape_ne_nil (c : Char) : escape c ≠ [] := by
  obtain ⟨e, heq, _⟩ | ⟨heq, _⟩ | ⟨heq, _⟩ | ⟨heq, _⟩ := escape_cases c <;> simp [heq, unicode]

theorem isAscii_unicode (n : Nat) : Text.IsAscii (unicode n) := by
  simp [unicode, Number.isAscii_hexDigits]

theorem isAscii_escape (c : Char) : Text.IsAscii (escape c) := by
  obtain ⟨e, heq, _, _, he⟩ | ⟨heq, _, _, _, hc⟩ | ⟨heq, _⟩ | ⟨heq, _⟩ := escape_cases c
  · simp [heq, he]
  · simp [heq]
    omega
  · rw [heq]
    exact isAscii_unicode _
  · rw [heq]
    exact Text.isAscii_append.mpr ⟨isAscii_unicode _, isAscii_unicode _⟩

theorem isAscii_quoted (s : String) : Text.IsAscii (quoted s).toList := by
  intro c hc
  simp only [quoted, String.toList_ofList, mem_append, mem_cons, mem_flatMap] at hc
  obtain (rfl | ⟨d, _, hd⟩) | rfl | hc := hc
  · decide
  · exact isAscii_escape d c hd
  · decide
  · cases hc

/-! ## Reading them -/

theorem hex4_hexDigits {n} (h : n < 0x10000) (rest : List Char) :
    hex4 (Text.hexDigits 4 n ++ rest) = some (n, rest) := by
  have hread : Number.natural? 16 (Text.hexDigits 4 n) = some n := by
    rw [Number.natural?_hexDigits 3 n, Nat.mod_eq_of_lt (show n < Nat.pow 16 (3 + 1) from h)]
  obtain ⟨a, b, c, d, hdigits⟩ : ∃ a b c d, Text.hexDigits 4 n = [a, b, c, d] := ⟨_, _, _, _, rfl⟩
  rw [hdigits] at hread ⊢
  simp only [cons_append, nil_append, hex4, hread, Option.map_some]

/-- Whether a text starts with the escape of a low half. -/
def StartsLow (cs : List Char) : Prop :=
  ∃ more n after, cs = '\\' :: 'u' :: more ∧ hex4 more = some (n, after) ∧ 0xDC00 ≤ n ∧ n ≤ 0xDFFF

theorem unicodeEscape_alone {n} (hn : n < 0x10000) {rest}
    (h : 0xD800 ≤ n → n ≤ 0xDBFF → ¬ StartsLow rest) :
    unicodeEscape (Text.hexDigits 4 n ++ rest) = some (Text.charOf n, rest) := by
  unfold unicodeEscape
  rw [hex4_hexDigits hn]
  dsimp only [Option.bind_eq_bind, Option.bind_some]
  split
  · next hhigh =>
    simp only [Bool.and_eq_true, decide_eq_true_eq] at hhigh
    have hchar : Text.charOf n = Text.ofHalf n := by
      refine if_pos ?_
      simp only [Text.isHalf, Bool.and_eq_true, decide_eq_true_eq]
      omega
    have hlow := h hhigh.1 hhigh.2
    rw [hchar]
    split
    · next more =>
      split
      · next m after hmore =>
        refine if_neg fun hm => hlow ⟨more, m, after, rfl, hmore, ?_⟩
        simpa using hm
      · rfl
    · rfl
  · rfl

theorem unicodeEscape_pair {high low} (hhigh : high < 0x400) (hlow : low < 0x400) (rest) :
    unicodeEscape (Text.hexDigits 4 (0xD800 + high) ++ (unicode (0xDC00 + low) ++ rest)) =
      some (Char.ofNat (0x10000 + high * 0x400 + low), rest) := by
  have hfirst : (0xD800 ≤ 0xD800 + high && 0xD800 + high ≤ 0xDBFF) = true := by
    simp only [Bool.and_eq_true, decide_eq_true_eq]
    omega
  have hsecond : (0xDC00 ≤ 0xDC00 + low && 0xDC00 + low ≤ 0xDFFF) = true := by
    simp only [Bool.and_eq_true, decide_eq_true_eq]
    omega
  have hread := hex4_hexDigits (show 0xDC00 + low < 0x10000 by omega) rest
  unfold unicodeEscape
  rw [hex4_hexDigits (by omega)]
  dsimp only [Option.bind_eq_bind, Option.bind_some, unicode, cons_append]
  rw [if_pos hfirst]
  simp only [hread, hsecond, if_true, Nat.add_sub_cancel_left]

theorem string_escape {c rest} (fuel : Nat) (acc : List Char)
    (h : (Text.half? c).any (· < 0xDC00) = true → ¬ StartsLow rest) :
    string (fuel + 1) (escape c ++ rest) acc = string fuel rest (c :: acc) := by
  obtain ⟨e, heq, he, hu, _⟩ | ⟨heq, hquote, hslash, hc, _⟩ | ⟨heq, hn⟩ | ⟨heq, hn⟩ := escape_cases c
  · rw [heq]
    simp [string, he]
  · rw [heq]
    simp [string, hquote, hslash, Nat.not_lt.mpr hc]
  · have halone : unicodeEscape (Text.hexDigits 4 (Text.codeOf c) ++ rest) = some (c, rest) := by
      rw [unicodeEscape_alone hn, Text.charOf_codeOf]
      intro hlow hhigh
      refine h ?_
      rw [Text.half?_of_isHalf (by simp only [Text.isHalf, Bool.and_eq_true, decide_eq_true_eq]; omega)]
      simp only [Option.any_some, decide_eq_true_eq]
      omega
    rw [heq]
    simp [string, unicode, halone]
  · obtain ⟨hc, hmax⟩ := Text.toNat_of_le_codeOf hn
    have hhigh : (Text.codeOf c - 0x10000) / 0x400 < 0x400 := by omega
    have hlow : (Text.codeOf c - 0x10000) % 0x400 < 0x400 := by omega
    have hpair := unicodeEscape_pair hhigh hlow rest
    have hjoined : 0x10000 + (Text.codeOf c - 0x10000) / 0x400 * 0x400 +
        (Text.codeOf c - 0x10000) % 0x400 = c.toNat := by omega
    rw [hjoined, Char.ofNat_toNat] at hpair
    rw [heq, append_assoc, unicode]
    simp only [cons_append, string]
    rw [hpair]
    simp

theorem half?_of_startsLow {c rest} (h : StartsLow (escape c ++ rest)) :
    (Text.half? c).any (0xDC00 ≤ ·) = true := by
  obtain ⟨more, n, after, hstart, hread, hlow, hhigh⟩ := h
  obtain ⟨e, heq, _, hu, _⟩ | ⟨heq, _, hslash, _⟩ | ⟨heq, hn⟩ | ⟨heq, hn⟩ := escape_cases c
  · rw [heq] at hstart
    simp [hu] at hstart
  · rw [heq] at hstart
    simp [hslash] at hstart
  · rw [heq, unicode] at hstart
    simp only [cons_append, cons.injEq, true_and] at hstart
    rw [← hstart, hex4_hexDigits hn] at hread
    cases hread
    rw [Text.half?_of_isHalf (by simp only [Text.isHalf, Bool.and_eq_true, decide_eq_true_eq]; omega)]
    simpa using hlow
  · have hmax := Text.toNat_of_le_codeOf hn
    rw [heq, append_assoc, unicode] at hstart
    simp only [cons_append, cons.injEq, true_and] at hstart
    rw [← hstart, hex4_hexDigits (by omega)] at hread
    cases hread
    omega

/-- A text is read from its characters' escapes, with the quote that ends it. -/
theorem string_quoted {cs} (h : Text.isWhole cs = true) (fuel acc rest)
    (hfuel : (cs.flatMap escape).length < fuel) : string fuel (cs.flatMap escape ++ '\x22' :: rest) acc =
      .ok (String.ofList (acc.reverse ++ cs), rest) := by
  induction cs generalizing fuel acc with
  | nil =>
    obtain ⟨fuel, rfl⟩ := Nat.exists_eq_add_one.mpr (Nat.zero_lt_of_lt hfuel)
    simp [string, pure, Except.pure]
  | cons c cs ih =>
    rw [flatMap_cons, length_append] at hfuel
    obtain ⟨fuel, rfl⟩ := Nat.exists_eq_add_one.mpr (Nat.zero_lt_of_lt hfuel)
    have hpos : 0 < (escape c).length := length_pos_iff.mpr (escape_ne_nil c)
    obtain ⟨htail, hnext⟩ : Text.isWhole cs = true ∧ ((Text.half? c).any (· < 0xDC00) = true →
        ¬ StartsLow (cs.flatMap escape ++ '\x22' :: rest)) := by
      cases cs with
      | nil => exact ⟨rfl, fun _ hlow => by simp [StartsLow] at hlow⟩
      | cons d cs =>
        simp only [Text.isWhole, Bool.and_eq_true, Bool.not_eq_true'] at h
        refine ⟨h.2, fun hhigh hlow => ?_⟩
        rw [flatMap_cons, append_assoc] at hlow
        simp [Text.joins, hhigh, half?_of_startsLow hlow] at h
    rw [flatMap_cons, append_assoc, string_escape fuel acc hnext, ih htail fuel (c :: acc) (by omega)]
    simp

end Json
end CwlService
