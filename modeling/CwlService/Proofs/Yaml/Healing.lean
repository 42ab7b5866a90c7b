import CwlService.Document.Reading
import CwlService.Proofs.Text.Extent
import Mathlib.Algebra.BigOperators.Group.Finset.Piecewise
import Mathlib.Data.List.DropRight

/-! # What repairs leave of a text

A text that does not read is tried again with a colon after one of its lines, which is then a
text of the same lines. So whatever is wrong with the text that is tried last stands on a line
of the first one, and there are as many colons more as there were repairs, at most. -/
namespace CwlService

open List

namespace Text

/-! ## Lines put together -/

/-- A text within one line. -/
def Unbroken (l : String) : Prop := ∀ c ∈ l.toList, isLineEnd c = false

theorem lineEnds_eq_zero {cs} (h : ∀ c ∈ cs, isLineEnd c = false) : lineEnds cs = 0 := by
  fun_induction lineEnds cs with
  | case1 => rfl
  | case2 rest ih => exact absurd (h '\r' (by simp)) (by decide)
  | case3 c rest hpair ih =>
    rw [h c (by simp), ih fun d hd => h d (by simp [hd])]
    rfl

theorem unbroken_linesFrom (line : List Char) (began : Bool) (cs : List Char)
    (hline : ∀ c ∈ line, isLineEnd c = false) :
    ∀ l ∈ linesFrom line began cs, ∀ c ∈ l, isLineEnd c = false := by
  have hreverse : ∀ {line : List Char}, (∀ c ∈ line, isLineEnd c = false) →
      ∀ c ∈ line.reverse, isLineEnd c = false :=
    fun h c hc => h c (mem_reverse.mp hc)
  fun_induction linesFrom line began cs with
  | case1 line => simpa using hline
  | case2 line began hbegan => simp
  | case3 line began rest ih => exact forall_mem_cons.mpr ⟨hreverse hline, ih (by simp)⟩
  | case4 line began c rest hpair hend ih =>
    exact forall_mem_cons.mpr ⟨hreverse hline, ih (by simp)⟩
  | case5 line began c rest hpair hend ih =>
    exact ih (forall_mem_cons.mpr ⟨Bool.eq_false_iff.mpr hend, hline⟩)

theorem unbroken_of_mem_lines {s l} (h : l ∈ lines s) : Unbroken l := by
  obtain ⟨cs, hcs, rfl⟩ := mem_map.mp h
  rw [Unbroken, String.toList_ofList]
  exact unbroken_linesFrom [] false s.toList (by simp) cs hcs

theorem linesFrom_unbroken {cs} (h : ∀ c ∈ cs, isLineEnd c = false) (line : List Char)
    (began : Bool) (rest : List Char) : linesFrom line began (cs ++ '\n' :: rest) =
      (line.reverse ++ cs) :: linesFrom [] false rest := by
  induction cs generalizing line began with
  | nil => simp [linesFrom, isLineEnd]
  | cons c cs ih =>
    obtain ⟨hc, hcs⟩ := forall_mem_cons.mp h
    have hreturn : c ≠ '\r' := by
      rintro rfl
      exact absurd hc (by decide)
    rw [cons_append, linesFrom.eq_3 _ _ _ _ fun _ h _ => hreturn h, hc, if_neg (by simp),
      ih hcs]
    simp

/-- Lines put together are lines again, but an empty one at the end is none. -/
theorem lines_unlines (ls : List String) (h : ∀ l ∈ ls, Unbroken l) :
    ∃ blank, (∀ l ∈ blank, l = "") ∧ lines (unlines ls) ++ blank = ls := by
  induction ls with
  | nil => exact ⟨[], by simp, rfl⟩
  | cons l ls ih =>
    obtain ⟨hl, hls⟩ := forall_mem_cons.mp h
    cases ls with
    | nil =>
      have hone : unlines [l] = l := String.intercalate_singleton
      rw [hone]
      cases hcs : l.toList with
      | nil =>
        have hempty : l = "" := String.toList_eq_nil_iff.mp hcs
        subst hempty
        exact ⟨[""], by simp, rfl⟩
      | cons c cs =>
        refine ⟨[], by simp, ?_⟩
        have hopen : isOpen false l.toList = true := by
          rw [isOpen, getLast?_eq_some_getLast (by simp [hcs])]
          simp [hl _ (getLast_mem _)]
        rw [lines, linesFrom_of_no_ends [] false _ (lineEnds_eq_zero hl) hopen]
        simp
    | cons next ls =>
      obtain ⟨blank, hblank, hlines⟩ := ih hls
      refine ⟨blank, hblank, ?_⟩
      have hjoined : (unlines (l :: next :: ls)).toList = l.toList ++ '\n' :: (unlines (next :: ls)).toList := by
        simp [unlines, String.intercalate_cons_cons]
      have hfirst : lines (unlines (l :: next :: ls)) = l :: lines (unlines (next :: ls)) := by
        rw [lines, hjoined, linesFrom_unbroken hl]
        simp [lines]
      rw [hfirst, cons_append, hlines]

theorem length_lines_le (s : String) : (lines s).length ≤ lineEnds s.toList + 1 := by
  rw [lines, length_map, length_linesFrom]
  split <;> omega

/-! ## Lines with colons -/

def colons (count : Nat) : String := String.ofList (replicate count ':')

theorem colons_add (m n : Nat) : colons (m + n) = colons m ++ colons n := by
  rw [colons, replicate_add, String.ofList_append]
  rfl

/-- Lines that are others with colons after them, `count` at most, without some of the blank ones
at the end. -/
def GrownBy (count : Nat) (ls grown : List String) : Prop :=
  ∃ (added : Nat → Nat) (blank : List String), ∑ i ∈ Finset.range ls.length, added i ≤ count ∧
    (∀ l ∈ blank, l = "") ∧ grown ++ blank = ls.mapIdx fun i l => l ++ colons (added i)

theorem GrownBy.refl (ls : List String) : GrownBy 0 ls ls := by
  refine ⟨fun _ => 0, [], by simp, by simp, ?_⟩
  apply ext_getElem (by simp)
  intro i h h'
  simp [colons]

/-- A text that is another with at most one colon after one of its lines. -/
def Repairs (text repaired : String) : Prop :=
  ∃ i < (lines text).length, ∃ n ≤ 1, repaired = unlines ((lines text).modify i (· ++ colons n))

variable {text repaired : String} {count : Nat} {ls : List String}

theorem unbroken_modify (text : String) (i n : Nat) :
    ∀ l ∈ (lines text).modify i (· ++ colons n), Unbroken l := by
  intro l hl
  obtain ⟨j, hj, rfl⟩ := mem_iff_getElem.mp hl
  have hold : Unbroken ((lines text).get ⟨j, by simpa using hj⟩) := unbroken_of_mem_lines (get_mem _ _)
  rw [getElem_modify]
  split
  · intro c hc
    rw [String.toList_append, mem_append] at hc
    rcases hc with hc | hc
    · exact hold c hc
    · rw [colons, String.toList_ofList] at hc
      rw [eq_of_mem_replicate hc]
      decide
  · exact hold

theorem Repairs.lineEnds_le (h : Repairs text repaired) :
    lineEnds repaired.toList ≤ lineEnds text.toList := by
  obtain ⟨i, _, n, _, rfl⟩ := h
  have hls := unbroken_modify text i n
  have hends : (((lines text).modify i (· ++ colons n)).map fun l => lineEnds l.toList).sum = 0 := by
    refine sum_eq_zero fun k hk => ?_
    obtain ⟨l, hl, rfl⟩ := mem_map.mp hk
    exact lineEnds_eq_zero (hls l hl)
  have hend : lineEnds "\n".toList = 1 := by decide
  have hcount := length_lines_le text
  rw [unlines, lineEnds_intercalate (by decide) (by decide) _ fun l hl hlast =>
    absurd (hls l hl _ (mem_of_getLast? hlast)) (by decide), hends, hend, length_modify]
  omega

theorem modify_append {α : Type} (f : α → α) {i as} (h : i < as.length) (bs : List α) :
    as.modify i f ++ bs = (as ++ bs).modify i f := by
  induction as generalizing i with
  | nil => cases h
  | cons a as ih =>
    cases i with
    | zero => rfl
    | succ i => simp [ih (Nat.lt_of_succ_lt_succ h)]

theorem GrownBy.repairs (h : GrownBy count ls (lines text)) (hr : Repairs text repaired) :
    GrownBy (count + 1) ls (lines repaired) := by
  obtain ⟨i, hi, n, hn, rfl⟩ := hr
  obtain ⟨blank', hblank', hlines⟩ := lines_unlines _ (unbroken_modify text i n)
  obtain ⟨added, blank, hsum, hblank, hgrown⟩ := h
  refine ⟨fun j => added j + if j = i then n else 0, blank' ++ blank, ?_,
    fun l hl => (mem_append.mp hl).elim (hblank' l) (hblank l), ?_⟩
  · rw [Finset.sum_add_distrib, Finset.sum_ite_eq']
    split <;> omega
  · rw [← append_assoc, hlines, modify_append _ hi, hgrown]
    apply ext_getElem (by simp)
    intro j h h'
    by_cases hj : j = i
    · subst hj
      simp [colons_add, String.append_assoc]
    · simp [hj, Ne.symm hj]

end Text

namespace Yaml

open Text (lines lineEnds GrownBy Repairs)

/-! ## Problems inside a text -/

/-- A problem that stands in a text: on a line of it, or after its last line end. A key without its
colon and a value where none may stand are on lines of the text. -/
structure Problem.Inside (p : Problem) (text : String) : Prop where
  mark : p.mark.line ≤ lineEnds text.toList
  key : p.complaint = .missingColon → ∃ activity m, p.activity = some (activity, some m) ∧ m.line < (lines text).length
  value : p.complaint = .valueForbidden → p.mark.line < (lines text).length

theorem lineIndex?_natCast {count i} (h : i < count) : lineIndex? count i = some i := by
  rw [lineIndex?, if_pos (by omega), if_pos (by simpa using h), Int.toNat_natCast]

variable {line : Nat} {text : String}

theorem healKey_repairs (h : line < (lines text).length) :
    ∃ repaired, healKey text line = .ok repaired ∧ Repairs text repaired := by
  refine ⟨_, ?_, line, h, 1, Nat.le_refl 1, rfl⟩
  rw [healKey, lineIndex?_natCast h]
  rfl

/-! ## The line above a value -/

/-- A line with nothing but blanks, if with anything. -/
def IsBlank (l : String) : Prop := ∀ c ∈ l.toList, Text.isBlank c = true

theorem isEmpty_strip_iff (l : String) : (Text.strip l.toList).isEmpty = true ↔ IsBlank l := by
  rw [List.isEmpty_iff, Text.strip, Text.stripRight, reverse_eq_nil_iff, dropWhile_eq_nil_iff]
  constructor
  · intro h
    -- what is left begins with no blank, so there is nothing left if it is all blank
    rw [IsBlank, ← dropWhile_eq_nil_iff, ← dropWhile_idempotent, dropWhile_eq_nil_iff]
    exact fun c hc => h c (mem_reverse.mpr hc)
  · exact fun h c hc => h c ((dropWhile_sublist _).mem (mem_reverse.mp hc))

theorem nearestLine_spec {ls i} (h : i < ls.length) :
    ∃ j ≤ i, nearestLine ls i = .ok j ∧ (j = 0 ∨ ∀ l ∈ ls[j]?, ¬IsBlank l) ∧
      ∀ k, j < k → k ≤ i → ∀ l ∈ ls[k]?, IsBlank l := by
  induction i with
  | zero => exact ⟨0, le_rfl, if_neg (by simpa using ne_nil_of_length_pos h), .inl rfl, fun k hk hk' => by omega⟩
  | succ i ih =>
    have hl : ls[i + 1]? = some (ls.get ⟨i + 1, h⟩) := getElem?_eq_getElem h
    rw [nearestLine, hl]
    dsimp only
    split <;> rename_i hblank <;> rw [isEmpty_strip_iff] at hblank
    · obtain ⟨j, hj, hfound, hstop, hbetween⟩ := ih (Nat.lt_of_succ_lt h)
      refine ⟨j, by omega, hfound, hstop, fun k hjk hki => ?_⟩
      rcases Nat.lt_or_eq_of_le hki with hlt | rfl
      · exact hbetween k hjk (by omega)
      · simpa [hl] using hblank
    · exact ⟨i + 1, le_rfl, rfl, .inr (by simpa [hl] using hblank), fun k hk hk' => by omega⟩

/-- Lines with a colon after one of them, if that one has a character. -/
def withColon (ls : List String) (i : Nat) : List String := ls.modify i fun l => if l.isEmpty then l else l ++ ":"

theorem withColon_eq {ls i l} (hl : ls[i]? = some l) :
    withColon ls i = ls.set i (if l = "" then l else l ++ ":") := by
  simp [withColon, modify_eq_set, hl]

theorem withColon_eq_self_iff {ls i l} (hl : ls[i]? = some l) :
    withColon ls i = ls ↔ l = "" := by
  rw [withColon_eq hl]
  constructor
  · intro hset
    have hsame : (ls.set i (if l = "" then l else l ++ ":"))[i]? = some l := by rw [hset, hl]
    rw [getElem?_set_self (List.getElem?_eq_some_iff.mp hl).1] at hsame
    simpa using Option.some.inj hsame
  · rintro rfl
    exact ext_getElem? fun k => by grind

theorem withColon_eq_modify (ls : List String) (i : Nat) :
    ∃ n ≤ 1, withColon ls i = ls.modify i (· ++ Text.colons n) := by
  simp only [withColon, modify_eq_set]
  split
  · exact ⟨0, Nat.zero_le 1, by simp [Text.colons]⟩
  · exact ⟨1, Nat.le_refl 1, by simp [Text.colons]⟩

/-- The line that gets the colon: the nearest one above that is not blank, or the first if all are; above the first
line it is the last one. -/
theorem healValue_eq (h : line < (lines text).length) : ∃ i < (lines text).length,
    healValue text line = .ok (Text.unlines (withColon (lines text) i)) ∧ (line = 0 → i + 1 = (lines text).length) ∧
    (0 < line → i < line ∧ (i = 0 ∨ ∀ l ∈ (lines text)[i]?, ¬IsBlank l) ∧
      ∀ k, i < k → k < line → ∀ l ∈ (lines text)[k]?, IsBlank l) := by
  unfold healValue
  match line with
  | 0 =>
    have hlast : lineIndex? (lines text).length (0 - 1) = some ((lines text).length - 1) := by
      rw [lineIndex?, if_neg (by omega), if_pos (by omega)]
      rfl
    refine ⟨(lines text).length - 1, by omega, ?_, by omega, by omega⟩
    dsimp only
    rw [if_neg (by omega), Int.natCast_zero, hlast]
    rfl
  | 1 =>
    refine ⟨0, by omega, ?_, by omega, fun _ => ⟨Nat.one_pos, .inl rfl, fun k hk hk' => by omega⟩⟩
    have hfirst : lineIndex? (lines text).length 0 = some 0 := lineIndex?_natCast (i := 0) (by omega)
    dsimp only
    rw [if_neg (by omega), Int.natCast_one, Int.sub_self, hfirst]
    rfl
  | line + 2 =>
    obtain ⟨i, hi, hfound, hstop, hbetween⟩ := nearestLine_spec (show line + 1 < (lines text).length by omega)
    refine ⟨i, by omega, ?_, by omega, fun _ => ⟨by omega, hstop, fun k hik hk => hbetween k hik (by omega)⟩⟩
    dsimp only
    rw [if_pos (by omega), show ((line + 2 : Nat) - 1 : Int).toNat = line + 1 by omega, hfound]
    rfl

theorem healValue_repairs (h : line < (lines text).length) :
    ∃ repaired, healValue text line = .ok repaired ∧ Repairs text repaired := by
  obtain ⟨i, hi, hheal, _⟩ := healValue_eq h
  obtain ⟨n, hn, hcolon⟩ := withColon_eq_modify (lines text) i
  exact ⟨_, hheal, i, hi, n, hn, congrArg Text.unlines hcolon⟩

/-- What a repair above a line is meant to make of lines: the nearest one above that is not blank gets a colon. -/
inductive RepairsAbove (ls : List String) (line : Nat) : List String → Prop where
  | nearest {i l} (hi : i < line) (hl : ls[i]? = some l) (hne : ¬IsBlank l)
      (hbetween : ∀ k, i < k → k < line → ∀ l ∈ ls[k]?, IsBlank l) : RepairsAbove ls line (ls.set i (l ++ ":"))
  | none (h : ∀ k < line, ∀ l ∈ ls[k]?, IsBlank l) : RepairsAbove ls line ls

theorem RepairsAbove.eq_of_blank {ls ls'} (h : RepairsAbove ls line ls')
    (hblank : ∀ k < line, ∀ l ∈ ls[k]?, IsBlank l) : ls' = ls := by
  cases h with
  | nearest hi hl hne _ => exact absurd (hblank _ hi _ hl) hne
  | none _ => rfl

/-- A repair above a line of a text does what it is meant to do, apart from two cases. Above the first line it takes
the last line, if that one has a character. Where all lines above are blank it takes the first, if that one has. -/
theorem healValue_above_iff (h : line < (lines text).length) : ∃ ls, healValue text line = .ok (Text.unlines ls) ∧
    ls.length = (lines text).length ∧ (∃ blank, (∀ l ∈ blank, l = "") ∧ lines (Text.unlines ls) ++ blank = ls) ∧
    (RepairsAbove (lines text) line ls ↔ (line = 0 → (lines text).getLast? = some "") ∧
      (0 < line → (∀ k < line, ∀ l ∈ (lines text)[k]?, IsBlank l) → (lines text).head? = some "")) := by
  obtain ⟨i, hi, hheal, hlast, hfound⟩ := healValue_eq h
  obtain ⟨n, _, hcolon⟩ := withColon_eq_modify (lines text) i
  refine ⟨_, hheal, by rw [hcolon, length_modify], Text.lines_unlines _ (hcolon ▸ Text.unbroken_modify text i n), ?_⟩
  obtain ⟨l, hl⟩ : ∃ l, (lines text)[i]? = some l := ⟨_, getElem?_eq_getElem hi⟩
  by_cases hblank : ∀ k < line, ∀ l ∈ (lines text)[k]?, IsBlank l
  · have hmeant : RepairsAbove (lines text) line (withColon (lines text) i) ↔ l = "" := by
      rw [← withColon_eq_self_iff hl]
      exact ⟨(·.eq_of_blank hblank), fun hself => by rw [hself]; exact .none hblank⟩
    rw [hmeant]
    rcases Nat.eq_zero_or_pos line with rfl | hpos
    · rw [getLast?_eq_getElem?, ← hlast rfl, Nat.add_sub_cancel, hl]
      simp
    · have hfirst := (hfound hpos).2.1.resolve_right fun hne => hne l hl (hblank i (hfound hpos).1 l hl)
      subst hfirst
      rw [head?_eq_getElem?, hl]
      exact ⟨fun hempty => ⟨by omega, fun _ _ => congrArg some hempty⟩, fun h => Option.some.inj (h.2 hpos hblank)⟩
  · have hpos : 0 < line := Nat.pos_of_ne_zero fun hzero => hblank (by simp [hzero])
    obtain ⟨hi, hstop, hbetween⟩ := hfound hpos
    have hne : ¬IsBlank l := by
      intro hl'
      have hfirst := hstop.resolve_right fun hne => hne l hl hl'
      refine hblank fun k hk => ?_
      rcases Nat.eq_zero_or_pos k with rfl | hk'
      · simpa [← hfirst, hl] using hl'
      · exact hbetween k (by omega) hk
    refine iff_of_true ?_ ⟨by omega, fun _ hall => absurd hall hblank⟩
    rw [withColon_eq hl, if_neg fun hempty => hne (by simp [IsBlank, hempty])]
    exact .nearest hi hl hne hbetween

/-- A repair above the first line changes the last one. -/
theorem healValue_above_iff_first : ∃ ls, healValue "a: b: c\nd: e" (0 : Nat) = .ok (Text.unlines ls) ∧
    ¬RepairsAbove (lines "a: b: c\nd: e") 0 ls := by
  have hline : 0 < (lines "a: b: c\nd: e").length := by decide
  obtain ⟨ls, hheal, _, _, hiff⟩ := healValue_above_iff hline
  exact ⟨ls, hheal, fun h => absurd ((hiff.mp h).1 rfl) (by decide)⟩

theorem repaired?_repairs {p} (hp : p.Inside text) :
    repaired? p text = none ∨ ∃ repaired, repaired? p text = some (.ok repaired) ∧ Repairs text repaired := by
  unfold repaired?
  split
  · rename_i m hcomplaint hactivity
    obtain ⟨a, n, hn, hline⟩ := hp.key hcomplaint
    cases hactivity.symm.trans hn
    obtain ⟨repaired, hheal, hrepairs⟩ := healKey_repairs hline
    exact .inr ⟨repaired, congrArg some hheal, hrepairs⟩
  · rename_i hcomplaint
    obtain ⟨repaired, hheal, hrepairs⟩ := healValue_repairs (hp.value hcomplaint)
    exact .inr ⟨repaired, congrArg some hheal, hrepairs⟩
  · exact .inl rfl

/-! ## Attempts -/

section

variable {σ α : Type}

abbrev Loading (σ α : Type) := String → StateM σ (Except Failure α)

/-- The same way of loading with a note of every text and what came of it. -/
def noting (load : Loading σ α) : Loading (σ × List (String × Except Failure α)) α :=
  fun text s => ((load text s.1).1, (load text s.1).2, s.2 ++ [(text, (load text s.1).1)])

/-- A way of loading that fails only with problems inside the text. -/
def Complains (load : Loading σ α) : Prop :=
  ∀ text s f, (load text s).1 = .error f → ∃ p : Problem, f = .problem p ∧ p.Inside text

/-- What attempts came to: the data of the last one, or its problem. -/
def EndsAs (calls : List (String × Except Failure α)) : Outcome α → Prop
  | .data a => ∃ tried, calls.getLast? = some (tried, .ok a)
  | .problem p tried => calls.getLast? = some (tried, .error (.problem p))

/-- When there is no further attempt after what came of a text. -/
inductive Stops (retries : Nat) (text : String) : Except Failure α → Outcome α → Prop where
  | data (a : α) : Stops retries text (.ok a) (.data a)
  | problem (p : Problem) (h : retries = 0 ∨ repaired? p text = none) :
    Stops retries text (.error (.problem p)) (.problem p text)

variable {retries : Nat} {s : σ} {o : Outcome α}

theorem bind_at {β γ : Type} (x) (f : β → StateM σ γ) (s) : (x >>= f) s = f (x s).1 (x s).2 := rfl

theorem readHealing_of_stops (load : Loading σ α) (h : Stops retries text (load text s).1 o) :
    readHealing load retries text s = (.ok o, (load text s).2) := by
  rw [readHealing, bind_at]
  generalize (load text s).1 = r at h
  cases h with
  | data a => rfl
  | problem p h =>
    cases retries with
    | zero => rfl
    | succ retries =>
      dsimp only
      rw [h.resolve_left (Nat.succ_ne_zero _)]
      rfl

theorem readHealing_again (load : Loading σ α) {p next} (h : (load text s).1 = .error (.problem p))
    (hnext : repaired? p text = some (.ok next)) :
    readHealing load (retries + 1) text s = readHealing load retries next (load text s).2 := by
  rw [readHealing, bind_at, h]
  dsimp only
  rw [hnext]

/-- Attempts that read a text: each is of lines that have grown from the first ones, with problems on
lines up to `ends`. -/
structure Attempts (load : Loading σ α) (first : List String) (ends count retries : Nat) (text : String) (s : σ)
    (calls : List (String × Except Failure α)) (o : Outcome α) (t : σ) : Prop where
  read : readHealing load retries text s = (.ok o, t)
  noted : ∀ before, readHealing (noting load) retries text (s, before) = (.ok o, t, before ++ calls)
  few : calls.length ≤ retries + 1
  endsAs : EndsAs calls o
  grown : ∀ i call, calls[i]? = some call →
    GrownBy (count + i) first (lines call.1) ∧ ∀ p : Problem, call.2 = .error (.problem p) → p.mark.line ≤ ends

variable {load : Loading σ α} {first : List String} {ends count : Nat}

theorem Complains.line_le (hload : Complains load) (hends : lineEnds text.toList ≤ ends) (p)
    (h : (load text s).1 = .error (.problem p)) : p.mark.line ≤ ends := by
  obtain ⟨q, hq, hinside⟩ := hload text s _ h
  cases hq
  exact Nat.le_trans hinside.mark hends

theorem Attempts.one (hload : Complains load) (h : Stops retries text (load text s).1 o)
    (hgrown : GrownBy count first (lines text))
    (hends : lineEnds text.toList ≤ ends) :
    Attempts load first ends count retries text s [(text, (load text s).1)] o (load text s).2 where
  read := readHealing_of_stops load h
  noted before := readHealing_of_stops (noting load) (s := (s, before)) h
  few := by simp
  endsAs := by
    generalize (load text s).1 = r at h
    cases h with
    | data a => exact ⟨text, rfl⟩
    | problem p h => rfl
  grown i call hcall := by
    cases i with
    | zero =>
      cases hcall
      exact ⟨hgrown, hload.line_le hends⟩
    | succ i => cases hcall

theorem Attempts.again {p next calls t} (hload : Complains load)
    (h : (load text s).1 = .error (.problem p)) (hnext : repaired? p text = some (.ok next))
    (hgrown : GrownBy count first (lines text)) (hends : lineEnds text.toList ≤ ends)
    (hrest : Attempts load first ends (count + 1) retries next (load text s).2 calls o t) :
    Attempts load first ends count (retries + 1) text s ((text, (load text s).1) :: calls) o t where
  read := (readHealing_again load h hnext).trans hrest.read
  noted before := by
    rw [readHealing_again (noting load) (s := (s, before)) h hnext]
    change readHealing (noting load) retries next ((load text s).2, before ++ [(text, (load text s).1)]) = _
    rw [hrest.noted, append_assoc]
    rfl
  few := Nat.succ_le_succ hrest.few
  endsAs := by
    have hend := hrest.endsAs
    have hlast : ∀ call, calls.getLast? = some call → ((text, (load text s).1) :: calls).getLast? = some call := by
      intro call hcall
      rw [getLast?_cons, hcall]
      rfl
    cases o with
    | data a =>
      obtain ⟨tried, htried⟩ := hend
      exact ⟨tried, hlast _ htried⟩
    | problem p tried => exact hlast _ hend
  grown i call hcall := by
    cases i with
    | zero =>
      cases hcall
      exact ⟨hgrown, hload.line_le hends⟩
    | succ i =>
      rw [Nat.add_comm i 1, ← Nat.add_assoc]
      exact hrest.grown i call hcall

theorem Complains.next (hload : Complains load) (retries text s) :
    (∃ o, Stops retries text (load text s).1 o) ∨ ∃ n p next, retries = n + 1 ∧
      (load text s).1 = .error (.problem p) ∧ repaired? p text = some (.ok next) ∧ Repairs text next := by
  cases hr : (load text s).1 with
  | ok a => exact .inl ⟨_, .data a⟩
  | error f =>
    obtain ⟨p, rfl, hp⟩ := hload text s f hr
    rcases repaired?_repairs hp with hnone | ⟨next, hnext, hrepairs⟩
    · exact .inl ⟨_, .problem p (.inr hnone)⟩
    · cases retries with
      | zero => exact .inl ⟨_, .problem p (.inl rfl)⟩
      | succ n => exact .inr ⟨n, p, next, rfl, rfl, hnext, hrepairs⟩

theorem exists_attempts (retries s) (hload : Complains load)
    (hgrown : GrownBy count first (lines text)) (hends : lineEnds text.toList ≤ ends) :
    ∃ calls o t, Attempts load first ends count retries text s calls o t := by
  induction retries using Nat.strongRecOn generalizing text s count with
  | ind retries ih =>
    rcases hload.next retries text s with ⟨o, ho⟩ | ⟨n, p, next, rfl, hp, hnext, hrepairs⟩
    · exact ⟨_, o, _, .one hload ho hgrown hends⟩
    · obtain ⟨calls, o, t, hrest⟩ := ih n (Nat.lt_succ_self n) _ (hgrown.repairs hrepairs)
        (Nat.le_trans hrepairs.lineEnds_le hends)
      exact ⟨_, o, t, .again hload hp hnext hgrown hends hrest⟩

end

end Yaml

namespace Document

open Text (lines lineEnds GrownBy)
open Yaml (Loading noting Complains)
open Yaml.Reader (Loaded)

variable {σ : Type}

/-- However texts are loaded, reading one makes at most one attempt more than there are retries. Each
is of the lines of the text, with as many colons after them as there were attempts before. What comes
of the last attempt is what comes of all: its data, or nothing and its problem, at a line of the text. -/
theorem readBy_attempts (load : Loading σ Loaded) (hload : Complains load) (retries : Nat) (text : String) (s : σ) :
    ∃ (calls : List (String × Except Yaml.Failure Loaded)) (last : String × Except Yaml.Failure Loaded)
      (result : Loaded × List Diagnostic) (t : σ),
      (readBy (noting load) retries text).run (s, []) = (.ok result, t, calls) ∧
      (readBy load retries text).run s = (.ok result, t) ∧
      calls.length ≤ retries + 1 ∧
      (∀ i call, calls[i]? = some call → GrownBy i (lines text) (lines call.1)) ∧
      calls.getLast? = some last ∧
      match last.2 with
      | .ok l => result = (l, [])
      | .error _ => ∃ d place, result = (⟨.null, []⟩, [d]) ∧ d.span = some (Span.at_ place) ∧
        0 ≤ place.line ∧ place.line ≤ lineEnds text.toList := by
  obtain ⟨calls, o, t, h⟩ := Yaml.exists_attempts retries s hload (GrownBy.refl (lines text))
    (Nat.le_refl (lineEnds text.toList))
  have hgrown : ∀ i call, calls[i]? = some call → GrownBy i (lines text) (lines call.1) := by
    intro i call hcall
    simpa using (h.grown i call hcall).1
  have hread : ∀ result, outcome (.ok o) = .ok result →
      (readBy (noting load) retries text).run (s, []) = (.ok result, t, calls) ∧
        (readBy load retries text).run s = (.ok result, t) := by
    intro result hresult
    constructor
    · change (outcome (Yaml.readHealing (noting load) retries text (s, [])).1, _) = _
      rw [h.noted, hresult]
      rfl
    · change (outcome (Yaml.readHealing load retries text s).1, _) = _
      rw [h.read, hresult]
  have hend := h.endsAs
  cases o with
  | data l =>
    obtain ⟨tried, hlast⟩ := hend
    obtain ⟨hnoting, hplain⟩ := hread _ rfl
    exact ⟨calls, _, _, t, hnoting, hplain, h.few, hgrown, hlast, rfl⟩
  | problem p tried =>
    obtain ⟨hnoting, hplain⟩ := hread _ rfl
    obtain ⟨i, hi⟩ := mem_iff_getElem?.mp (mem_of_getLast? hend)
    have hline := (h.grown i _ hi).2 p rfl
    exact ⟨calls, _, _, t, hnoting, hplain, h.few, hgrown, hend, _, ⟨p.mark.line, p.mark.column⟩, rfl, rfl,
      Int.natCast_nonneg _, Int.ofNat_le.mpr hline⟩

/-- A way of loading that misses a colon in one text. -/
def typing : Loading Unit Loaded := fun text _ =>
  (if text = "class\n" then .error (.problem ⟨.tokens, some (.simpleKey, some ⟨0, 0, 0⟩), .missingColon, ⟨6, 1, 0⟩⟩)
    else .ok ⟨.null, []⟩, ())

theorem complains_typing : Complains typing := by
  intro text s f h
  by_cases htext : text = "class\n"
  · subst htext
    cases h
    exact ⟨_, rfl, by decide, fun _ => ⟨.simpleKey, ⟨0, 0, 0⟩, rfl, by decide⟩, fun hvalue => by cases hvalue⟩
  · rw [typing, if_neg htext] at h
    cases h

theorem readBy_attempts_typing : ∃ calls result t,
    (readBy (noting typing) 3 "class\n").run ((), []) = (.ok result, t, calls) ∧ calls.length ≤ 4 ∧
      ∀ i call, calls[i]? = some call → GrownBy i (lines "class\n") (lines call.1) := by
  obtain ⟨calls, last, result, t, hread, _, hfew, hgrown, _⟩ :=
    readBy_attempts typing complains_typing 3 "class\n" ()
  exact ⟨calls, result, t, hread, hfew, hgrown⟩

end Document
end CwlService
