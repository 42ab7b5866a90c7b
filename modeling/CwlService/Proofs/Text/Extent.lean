import CwlService.Text.Basic
import Mathlib.Algebra.Ring.Nat

/-! # How far a text extends

A text is as long as its parts, and has as many line ends, as long as no part ends in the
middle of a line end. If it does not end with one, its lines are known by these two numbers. -/
namespace CwlService.Text

open List

/-- The number of line ends. -/
def lineEnds : List Char → Nat
  | [] => 0
  | '\r' :: '\n' :: rest => 1 + lineEnds rest
  | c :: rest => (if isLineEnd c then 1 else 0) + lineEnds rest

/-- How long a text is, and how many line ends it has. -/
def extent (s : String) : Nat × Nat := (s.length, lineEnds s.toList)

/-! ## Parts of a text -/

theorem lineEnds_append (xs ys : List Char) (h : xs.getLast? = some '\r' → ys.head? ≠ some '\n') :
    lineEnds (xs ++ ys) = lineEnds xs + lineEnds ys := by
  fun_induction lineEnds xs with
  | case1 => simp
  | case2 rest ih =>
    rw [cons_append, cons_append, lineEnds, ih]
    · omega
    · intro hlast
      refine h ?_
      rw [List.getLast?_cons_cons, List.getLast?_cons, hlast]
      rfl
  | case3 c rest hpair ih =>
    have hrest : lineEnds (rest ++ ys) = lineEnds rest + lineEnds ys := by
      refine ih fun hlast => h ?_
      rw [List.getLast?_cons, hlast]
      rfl
    rw [cons_append, lineEnds.eq_3, hrest]
    · omega
    · intro rest' hc hrest'
      cases rest with
      | nil =>
        subst hc
        refine h rfl ?_
        rw [nil_append] at hrest'
        rw [hrest']
        rfl
      | cons d rest =>
        obtain ⟨rfl, _⟩ := List.cons.inj hrest'
        exact hpair rest hc rfl

variable {after before s t : String}

theorem lineEnds_around (hbefore : before.toList.getLast? ≠ some '\r')
    (hafter : after.toList.head? ≠ some '\n') (s) : lineEnds (before ++ s ++ after).toList =
      lineEnds before.toList + lineEnds s.toList + lineEnds after.toList := by
  rw [String.toList_append, lineEnds_append _ _ fun _ => hafter, String.toList_append,
    lineEnds_append _ _ fun hlast => (hbefore hlast).elim]

theorem lineEnds_intercalate {sep : String} (hne : sep.toList ≠ [])
    (hsep : sep.toList.getLast? ≠ some '\r') (parts)
    (hparts : ∀ s ∈ parts, s.toList.getLast? = some '\r' → sep.toList.head? ≠ some '\n') :
    lineEnds (sep.intercalate parts).toList =
      (parts.map fun s => lineEnds s.toList).sum + (parts.length - 1) * lineEnds sep.toList := by
  induction parts with
  | nil => simp [lineEnds]
  | cons part rest ih =>
    cases rest with
    | nil => simp
    | cons next rest =>
      obtain ⟨hpart, hrest⟩ := forall_mem_cons.mp hparts
      rw [String.intercalate_cons_cons, map_cons, sum_cons, String.append_assoc,
        String.toList_append, lineEnds_append, String.toList_append,
        lineEnds_append _ _ fun hlast => absurd hlast hsep, ih hrest]
      · simp only [length_cons, Nat.add_sub_cancel, Nat.succ_mul]
        omega
      · obtain ⟨c, cs, hcons⟩ := exists_cons_of_ne_nil hne
        rw [hcons] at hpart
        rw [String.toList_append, hcons]
        exact hpart

theorem length_intercalate (parts : List String) :
    (", ".intercalate parts).length = (parts.map String.length).sum + 2 * (parts.length - 1) := by
  induction parts with
  | nil => rfl
  | cons part rest ih =>
    cases rest with
    | nil => simp
    | cons next rest =>
      rw [String.intercalate_cons_cons, String.length_append, String.length_append, ih]
      simp only [map_cons, sum_cons, length_cons]
      have hcomma : ", ".length = 2 := rfl
      omega

theorem extent_around (hbefore : before.toList.getLast? ≠ some '\r') (hafter : after.toList.head? ≠ some '\n')
    (h : extent s = extent t) : extent (before ++ s ++ after) = extent (before ++ t ++ after) := by
  obtain ⟨hlength, hends⟩ := Prod.mk.inj h
  unfold extent
  rw [lineEnds_around hbefore hafter, lineEnds_around hbefore hafter, hends]
  simp only [String.length_append, hlength]

theorem extent_after (hbefore : before.toList.getLast? ≠ some '\r') (h : extent s = extent t) :
    extent (before ++ s) = extent (before ++ t) := by
  have haround : extent (before ++ s ++ "") = extent (before ++ t ++ "") :=
    extent_around hbefore (by decide) h
  rwa [String.append_empty, String.append_empty] at haround

theorem extent_intercalate {parts parts'} (h : (parts.map extent).Perm (parts'.map extent)) :
    extent (", ".intercalate parts) = extent (", ".intercalate parts') := by
  have hlengths : (parts.map String.length).sum = (parts'.map String.length).sum := by
    have hsum := (h.map Prod.fst).sum_nat
    rw [map_map, map_map] at hsum
    exact hsum
  have hends : (parts.map fun s => lineEnds s.toList).sum =
      (parts'.map fun s => lineEnds s.toList).sum := by
    have hsum := (h.map Prod.snd).sum_nat
    rw [map_map, map_map] at hsum
    exact hsum
  have hcount : parts.length = parts'.length := by simpa using h.length_eq
  unfold extent
  have hcommas : ∀ parts : List String, lineEnds (", ".intercalate parts).toList =
      (parts.map fun s => lineEnds s.toList).sum :=
    fun parts => lineEnds_intercalate (by decide) (by decide) parts fun _ _ _ => by decide
  rw [hcommas, hcommas, length_intercalate, length_intercalate, hlengths, hends, hcount]

/-! ## Lines -/

/-- Whether the last line of a text has begun. -/
def isOpen (began : Bool) (cs : List Char) : Bool := cs.getLast?.elim began fun c => !isLineEnd c

theorem isOpen_cons (began : Bool) (c : Char) (rest : List Char) :
    isOpen began (c :: rest) = isOpen (!isLineEnd c) rest := by
  unfold isOpen
  rw [List.getLast?_cons]
  cases rest.getLast? <;> rfl

theorem length_linesFrom (line : List Char) (began : Bool) (cs : List Char) :
    (linesFrom line began cs).length = lineEnds cs + if isOpen began cs then 1 else 0 := by
  fun_induction linesFrom line began cs with
  | case1 line => rfl
  | case2 line began hbegan => simp [isOpen, lineEnds, hbegan]
  | case3 line began rest ih =>
    have hend : isLineEnd '\n' = true := by decide
    rw [length_cons, ih, lineEnds, isOpen_cons, isOpen_cons, hend, Bool.not_true]
    omega
  | case4 line began c rest hpair hend ih =>
    rw [length_cons, ih, lineEnds.eq_3 _ _ hpair, isOpen_cons, hend, Bool.not_true, if_pos rfl]
    omega
  | case5 line began c rest hpair hend ih =>
    rw [ih, lineEnds.eq_3 _ _ hpair, isOpen_cons, Bool.eq_false_iff.mpr hend, Bool.not_false]
    simp

theorem linesFrom_of_no_ends (line : List Char) (began : Bool) (cs : List Char)
    (h : lineEnds cs = 0) (hopen : isOpen began cs = true) :
    linesFrom line began cs = [line.reverse ++ cs] := by
  fun_induction linesFrom line began cs with
  | case1 line => rw [append_nil]
  | case2 line began hbegan => exact (hbegan hopen).elim
  | case3 line began rest ih =>
    rw [lineEnds] at h
    omega
  | case4 line began c rest hpair hend ih =>
    rw [lineEnds.eq_3 _ _ hpair, if_pos hend] at h
    omega
  | case5 line began c rest hpair hend ih =>
    rw [lineEnds.eq_3 _ _ hpair, if_neg hend, Nat.zero_add] at h
    rw [isOpen_cons, Bool.eq_false_iff.mpr hend, Bool.not_false] at hopen
    rw [ih h hopen, reverse_cons, append_assoc]
    rfl

/-- Texts that extend as far and do not end with a line end have as many lines, and those are
as long if there is one. -/
theorem lines_of_extent (h : extent s = extent t) (hs : isOpen false s.toList = true)
    (ht : isOpen false t.toList = true) : (lines s = [s] ∧ lines t = [t]) ∨
      ((lines s).length = (lines t).length ∧ 1 < (lines s).length) := by
  obtain ⟨_, hends⟩ := Prod.mk.inj h
  cases hnone : lineEnds s.toList with
  | zero =>
    refine .inl ⟨?_, ?_⟩
    · rw [lines, linesFrom_of_no_ends [] false _ hnone hs]
      simp
    · rw [lines, linesFrom_of_no_ends [] false _ (hends ▸ hnone) ht]
      simp
  | succ n =>
    refine .inr ⟨?_, ?_⟩
    · rw [lines, lines, length_map, length_map, length_linesFrom, length_linesFrom, hs, ht, hends]
    · rw [lines, length_map, length_linesFrom, hs, hnone, if_pos rfl]
      omega

end CwlService.Text
