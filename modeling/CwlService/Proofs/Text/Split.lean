import CwlService.Text.Basic

/-! # Parts of a text

A text of two parts is the first, the character between them and the second, and in no
other way is it two texts with that character between them. -/
namespace CwlService.Text

open List

theorem parts_append (sep : Char) (t p : String) :
    parts sep (t ++ String.singleton sep ++ p) = parts sep t ++ parts sep p := by
  simp [parts, splitOn_append_cons_self]

theorem parts_ne_nil (sep : Char) (s : String) : parts sep s ≠ [] := by
  simp [parts, splitOn_ne_nil]

variable {part s : String} {sep : Char}

theorem parts_of_not_mem (h : sep ∉ s.toList) : parts sep s = [s] := by
  simp [parts, splitOn_eq_singleton h]

theorem length_parts (sep : Char) (s : String) : (parts sep s).length = s.toList.count sep + 1 := by
  rw [parts, length_map, List.splitOn]
  induction s.toList with
  | nil => rfl
  | cons c cs ih =>
    rw [splitOnP_cons_eq_if_modifyHead, count_cons]
    split
    · rw [length_cons, ih]
    · rw [length_modifyHead, ih, Nat.add_zero]

theorem parts_of_mem (h : sep ∈ s.toList) : ∃ a b rest, parts sep s = a :: b :: rest := by
  have hlength := length_parts sep s
  have hcount := count_pos_iff.mpr h
  match hparts : parts sep s with
  | [] => exact absurd hparts (parts_ne_nil sep s)
  | [_] =>
    rw [hparts, length_singleton] at hlength
    omega
  | a :: b :: rest => exact ⟨a, b, rest, rfl⟩

theorem eq_of_parts_singleton (h : parts sep s = [part]) : s = part := by
  obtain ⟨cs, hcs, rfl⟩ := map_eq_singleton_iff.mp h
  have hjoin : [sep].intercalate (s.toList.splitOn sep) = s.toList := intercalate_splitOn sep
  rw [hcs, intercalate_singleton] at hjoin
  rw [hjoin, String.ofList_toList]

theorem not_cut_of_parts_singleton (h : parts sep s = [part]) (t p : String) :
    s ≠ t ++ String.singleton sep ++ p := by
  rintro rfl
  rw [parts_append] at h
  have ht := length_pos_iff.mpr (parts_ne_nil sep t)
  have hp := length_pos_iff.mpr (parts_ne_nil sep p)
  have hlength := congrArg List.length h
  simp only [length_append, length_singleton] at hlength
  omega

theorem cut_iff_of_parts_pair {a b} (h : parts sep s = [a, b]) (t p : String) :
    s = t ++ String.singleton sep ++ p ↔ t = a ∧ p = b := by
  constructor
  · rintro rfl
    rw [parts_append] at h
    have ht := length_pos_iff.mpr (parts_ne_nil sep t)
    have hp := length_pos_iff.mpr (parts_ne_nil sep p)
    have hlength := congrArg List.length h
    simp only [length_append, length_cons, length_nil] at hlength
    obtain ⟨t', ht'⟩ := length_eq_one_iff.mp (show (parts sep t).length = 1 by omega)
    obtain ⟨p', hp'⟩ := length_eq_one_iff.mp (show (parts sep p).length = 1 by omega)
    rw [ht', hp'] at h
    cases h
    exact ⟨eq_of_parts_singleton ht', eq_of_parts_singleton hp'⟩
  · rintro ⟨rfl, rfl⟩
    obtain ⟨cs, rest, hcs, rfl, hrest⟩ := map_eq_cons_iff.mp h
    obtain ⟨ds, rfl, rfl⟩ := map_eq_singleton_iff.mp hrest
    have hjoin : [sep].intercalate (s.toList.splitOn sep) = s.toList := intercalate_splitOn sep
    rw [hcs] at hjoin
    refine String.toList_inj.mp ?_
    simpa [List.intercalate] using hjoin.symm

theorem mem_parts (h : part ∈ parts sep s) : ∀ c ∈ part.toList, c ∈ s.toList ∧ c ≠ sep := by
  obtain ⟨cs, hcs, rfl⟩ := mem_map.mp h
  rw [String.toList_ofList]
  clear h
  generalize s.toList = xs at hcs ⊢
  induction xs generalizing cs with
  | nil => simp_all
  | cons x xs ih =>
    rw [splitOn_cons_eq_if_modifyHead] at hcs
    split at hcs
    · obtain rfl | hmem := mem_cons.mp hcs
      · exact forall_mem_nil _
      · exact fun c hc => ⟨mem_cons_of_mem x (ih cs hmem c hc).1, (ih cs hmem c hc).2⟩
    · match hsplit : xs.splitOn sep with
      | [] => exact absurd hsplit (splitOn_ne_nil sep xs)
      | first :: rest =>
        rw [hsplit] at hcs ih
        obtain rfl | hmem := mem_cons.mp hcs
        · have hfirst := ih first mem_cons_self
          grind
        · have hrest := ih cs (mem_cons_of_mem first hmem)
          grind

theorem holds_eq_false {c part cs} (hpart : part.head? = some c) (h : c ∉ cs) : holds part cs = false := by
  obtain ⟨part, rfl⟩ := List.head?_eq_some_iff.mp hpart
  induction cs with
  | nil => rfl
  | cons d cs ih =>
    have hd : (c == d) = false := by
      simpa using fun heq : c = d => h (heq ▸ mem_cons_self)
    rw [holds, ih fun hmem => h (mem_cons_of_mem _ hmem), List.isPrefixOf, hd]
    rfl

/-! ## Ends of texts -/

variable {ending : String}

theorem endsWith_iff : s.endsWith ending = true ↔ ∃ t, s = t ++ ending := by
  rw [String.endsWith_eq_endsWith_toSlice, String.Slice.endsWith_string_iff, String.copy_toSlice]
  constructor
  · rintro ⟨cs, hcs⟩
    exact ⟨String.ofList cs, String.toList_injective (by simp [hcs])⟩
  · rintro ⟨t, rfl⟩
    exact ⟨t.toList, String.toList_append.symm⟩

theorem withoutEnd_append (t ending : String) : withoutEnd ending (t ++ ending) = t := by
  rw [withoutEnd, if_pos (endsWith_iff.mpr ⟨t, rfl⟩)]
  apply String.toList_injective
  rw [String.Slice.toString_eq, String.toList_copy_dropEnd, String.toList_append, ← String.length_toList,
    length_append, Nat.add_sub_cancel, take_left]

theorem withoutEnd_eq_self (h : s.endsWith ending = false) : withoutEnd ending s = s := by
  rw [withoutEnd, h]
  rfl

theorem withoutEnd_spec (ending s) : s = withoutEnd ending s ∨ s = withoutEnd ending s ++ ending := by
  cases h : s.endsWith ending with
  | false => exact .inl (withoutEnd_eq_self h).symm
  | true =>
    obtain ⟨t, rfl⟩ := endsWith_iff.mp h
    exact .inr (by rw [withoutEnd_append])

/-! ## Marks after names -/

/-- The marks after the name of a type: that a value may be missing, and that there is a list. -/
def typeMarks : List String := ["", "?", "[]", "[]?"]

/-- A name without marks. -/
structure IsBare (name : String) : Prop where
  required : name.endsWith "?" = false
  single : name.endsWith "[]" = false

theorem withoutEnd_mark {name mark} (hname : IsBare name) (hmark : mark ∈ typeMarks) :
    (mark = "" ∨ mark = "?") ∧ withoutEnd "?" (name ++ mark) = name ∨
      (mark = "[]" ∨ mark = "[]?") ∧ withoutEnd "?" (name ++ mark) = name ++ "[]" := by
  simp only [typeMarks, mem_cons, not_mem_nil, or_false] at hmark
  rcases hmark with rfl | rfl | rfl | rfl
  · exact .inl ⟨.inl rfl, by rw [String.append_empty, withoutEnd_eq_self hname.required]⟩
  · exact .inl ⟨.inr rfl, withoutEnd_append name "?"⟩
  · refine .inr ⟨.inl rfl, withoutEnd_eq_self (Bool.eq_false_iff.mpr fun h => ?_)⟩
    obtain ⟨t, ht⟩ := endsWith_iff.mp h
    have hlast := congrArg (fun s : String => s.toList.getLast?) ht
    simp at hlast
  · have hboth : "[]?" = "[]" ++ "?" := by decide
    exact .inr ⟨.inr rfl, by rw [hboth, ← String.append_assoc, withoutEnd_append]⟩

end CwlService.Text
