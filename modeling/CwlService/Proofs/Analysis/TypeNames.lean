import CwlService.Proofs.Analysis.Placed

/-! # Names of types as they are written

A name of a type of data can have marks after it. As names that are known have none themselves, what
is left without marks tells a known name from others, in every text but the empty one. -/
namespace CwlService.Analysis

open Text (typeMarks IsBare)

/-- A text is a known name with marks after it. -/
def NamesType (known : List Node) (text : String) : Prop :=
  ∃ k ∈ known, ∃ name, k.isName name = true ∧ ∃ mark ∈ typeMarks, text = name ++ mark

theorem bareTypeName_mark (text) : ∃ mark ∈ typeMarks, text = bareTypeName text ++ mark := by
  unfold bareTypeName
  rcases Text.withoutEnd_spec "?" text with hrequired | hrequired <;>
    rcases Text.withoutEnd_spec "[]" (Text.withoutEnd "?" text) with hsingle | hsingle
  · exact ⟨"", by simp [typeMarks], by rw [← hsingle, ← hrequired]; simp⟩
  · exact ⟨"[]", by simp [typeMarks], by rw [← hsingle, ← hrequired]⟩
  · exact ⟨"?", by simp [typeMarks], by rw [← hsingle, ← hrequired]⟩
  · have hboth : "[]?" = "[]" ++ "?" := by decide
    exact ⟨"[]?", by simp [typeMarks], by rw [hboth, ← String.append_assoc, ← hsingle, ← hrequired]⟩

theorem bareTypeName_append {name mark : String} (hname : IsBare name) (hmark : mark ∈ typeMarks) :
    bareTypeName (name ++ mark) = name := by
  unfold bareTypeName
  rcases Text.withoutEnd_mark hname hmark with ⟨_, h⟩ | ⟨_, h⟩
  · rw [h, Text.withoutEnd_eq_self hname.single]
  · rw [h, Text.withoutEnd_append]

/-- Known names are texts without marks. -/
def AreBare (known : List Node) : Prop := ∀ k ∈ known, ∃ name styled, k = .text name styled ∧ IsBare name

variable {known : List Node} {text : String}

theorem namesType_iff (h : AreBare known) :
    NamesType known text ↔ ((Language.distinct known).any fun k => k.isName (bareTypeName text)) = true := by
  rw [Language.distinct, any_members, List.any_eq_true]
  constructor
  · rintro ⟨k, hk, name, hname, mark, hmark, rfl⟩
    obtain ⟨styled, rfl⟩ := Node.isName_iff.mp hname
    obtain ⟨_, _, heq, hbare⟩ := h _ hk
    cases heq
    exact ⟨_, hk, by rwa [bareTypeName_append hbare hmark]⟩
  · rintro ⟨k, hk, hname⟩
    exact ⟨k, hk, _, hname, bareTypeName_mark text⟩

theorem exists_inOrder (h : AreBare known) : ∃ names, inOrder (Language.distinct known) = .ok names := by
  have htexts : ∀ n ∈ (NameSet.ofList known).members, n.isText = true := by
    intro n hn
    obtain ⟨name, styled, rfl, _⟩ := h n (NameSet.mem_of_mem_ofList hn)
    rfl
  exact ⟨_, by rw [inOrder, Language.distinct, Node.sorted?_eq_self (NameSet.ofList_textLe htexts) htexts]; rfl⟩

/-- Where the types that are known have no marks in their names, a name of a type is looked for in
every text but the empty one, and there is a problem, at its place, exactly if the text is no known
name with marks. -/
theorem visitDataType_problem_iff (symbols : List Node) (s : Analysis × Yaml.Reader)
    (hknown : AreBare (Node.Entries.keys s.1.types ++ symbols)) (text : String) (styled : Bool)
    (value : Option Span) :
    ((∃ s', Ends (visitDataType symbols (.text text styled) value) s () s') ↔ text ≠ "") ∧
    ∀ s', Ends (visitDataType symbols (.text text styled) value) s () s' →
      (NamesType (Node.Entries.keys s.1.types ++ symbols) text → s'.1.problems = s.1.problems) ∧
      (¬NamesType (Node.Entries.keys s.1.types ++ symbols) text →
        ∃ d, s'.1.problems = s.1.problems ++ [d] ∧ d.span = value) := by
  refine ⟨⟨?_, fun htext => ?_⟩, fun s' hends => ?_⟩
  · rintro ⟨s', hends⟩ rfl
    cases hends
  · obtain ⟨names, hnames⟩ := exists_inOrder hknown
    have hempty : text.isEmpty = false := by simpa using htext
    unfold visitDataType
    change ∃ s', Ends (if text.isEmpty = true then _ else _ : Walk Unit) s () s'
    cases hany : (Language.distinct (Node.Entries.keys s.1.types ++ symbols)).any fun k =>
        k.isName (bareTypeName text) with
    | true =>
      simp only [hempty, hany]
      exact ⟨(_, s.2), rfl⟩
    | false =>
      simp only [hempty, hany, hnames]
      exact ⟨(_, s.2), rfl⟩
  · have hreports := visitDataType_reports symbols (.text text styled) value () s' hends
    rw [namesType_iff hknown, Bool.not_eq_true]
    exact ⟨fun hnamed => hreports.2 (Bool.eq_false_iff.not_left.mpr hnamed), hreports.1⟩

theorem visitDataType_problem_iff_typing : ∃ s' d,
    Ends (visitDataType [.str "int"] (.str "in[]?") none) ({}, .plain) () s' ∧
      s'.1.problems = [d] := by
  have hbare : AreBare [.str "int"] := by
    intro k hk
    obtain rfl := List.mem_singleton.mp hk
    exact ⟨"int", false, rfl, by decide +kernel, by decide +kernel⟩
  obtain ⟨hends, hproblem⟩ :=
    visitDataType_problem_iff [.str "int"] ({}, .plain) hbare "in[]?" false none
  obtain ⟨s', hs'⟩ := hends.mpr (by decide)
  obtain ⟨d, hd, _⟩ := (hproblem s' hs').2 (fun hnames => absurd ((namesType_iff hbare).mp hnames) (by decide +kernel))
  exact ⟨s', d, hs', hd⟩

end CwlService.Analysis
