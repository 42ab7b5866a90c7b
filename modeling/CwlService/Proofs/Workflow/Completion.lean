import CwlService.Proofs.Workflow.Connections

/-! # Sources that are offered and sources that are accepted

While a source is typed, sources are offered that might follow; once it is written, it is
checked. Both go by the names of inputs and by the interfaces of steps, but not by the same
rule: a step is offered its own outputs, which it cannot take, and it is not offered an input
that has its name, which it can. Names with a slash in them are not told from an output of a
step when they are checked. Everything else that is offered is accepted, and the other way
round. -/
namespace CwlService.Workflow

/-- A source that is checked without a problem, wherever it is written and whatever was found
before. -/
def Accepts (w : Workflow) (known : Steps) (step : Option Node) (src : Node) : Prop :=
  ∀ span t, ∃ t', Ends (checkSource w known step src span) t () t' ∧ t'.problems = t.problems

variable {w : Workflow} {known : Steps}

/-! ## What is accepted -/

theorem checkTarget_ends_iff {step src span t} :
    (∃ t', Ends (checkTarget w known step src span) t () t' ∧ t'.problems = t.problems) ↔
      w.inputNames.contains src = true ∨ sourceFault? w known step src = .ok none := by
  unfold checkTarget
  cases hinput : w.inputNames.contains src with
  | true => exact ⟨fun _ => .inl rfl, fun _ => ⟨t, rfl, rfl⟩⟩
  | false =>
    rw [if_neg Bool.false_ne_true]
    constructor
    · rintro ⟨t', hends, hproblems⟩
      obtain ⟨fault, t₁, hlift, hrest⟩ := hends.bind
      obtain ⟨hfault, rfl⟩ := hlift.lift
      cases fault with
      | none => exact .inr hfault
      | some message =>
        -- a reported problem would show
        cases hrest
        have hlength := congrArg List.length hproblems
        simp at hlength
    · rintro (hinput | hfault)
      · cases hinput
      · rw [hfault]
        exact ⟨t, rfl, rfl⟩

theorem accepts_iff {step src} (hkey : src.isKey = true) (hnull : src.isNull = false) : Accepts w known step src ↔
      w.inputNames.contains src = true ∨ sourceFault? w known step src = .ok none := by
  have hcheck : ∀ span t, (checkSource w known step src span).run.run t =
      (checkTarget w known step src span).run.run { t with unused := t.unused.erase src } := by
    intro span t
    unfold checkSource
    rw [hkey, hnull]
    rfl
  unfold Accepts Ends
  simp only [hcheck]
  constructor
  · intro h
    obtain ⟨t', hends, hproblems⟩ := h default ⟨w.inputNames, []⟩
    exact checkTarget_ends_iff.mp ⟨t', hends, hproblems⟩
  · intro h span t
    exact checkTarget_ends_iff.mpr h

theorem accepts_null (step : Option Node) : Accepts w known step .null := by
  intro span t
  rw [checkSource_null span rfl]
  exact ⟨t, rfl, rfl⟩

theorem accepts_input {step n} (h : n ∈ w.inputNames.members) (hkey : n.isKey = true)
    (hsame : n.same n = true) : Accepts w known step n := by
  cases hnull : n.isNull with
  | true =>
    cases n with
    | null => exact accepts_null step
    | _ => cases hnull
  | false => exact (accepts_iff hkey hnull).mpr (.inl (NameSet.contains_iff.mpr ⟨n, h, hsame⟩))

/-- A text of a step and a port is accepted as an output only if it can be told from others by
its slash. -/
theorem sourceFault?_none_iff {step x} (hx : '/' ∉ x.toList) (p : String) :
    sourceFault? w known (some step) (.str (x ++ "/" ++ p)) = .ok none ↔
      '/' ∉ p.toList ∧ step.isName x = false ∧
        ∃ i, known.get? (.str x) = some i ∧ i.outputs.contains (.str p) = true := by
  have hparts : Text.parts '/' (x ++ "/" ++ p) = x :: Text.parts '/' p := by
    rw [slash_eq, Text.parts_append, Text.parts_of_not_mem hx]
    rfl
  unfold sourceFault?
  simp only [hparts]
  by_cases hp : '/' ∈ p.toList
  · obtain ⟨a, b, rest, hmany⟩ := Text.parts_of_mem hp
    rw [hmany]
    constructor
    · intro h
      cases h
    · exact fun h => absurd hp h.1
  · rw [Text.parts_of_not_mem hp]
    simp only [Option.any_some, hp, not_false_eq_true, true_and]
    by_cases hstep : step.isName x = true
    · rw [if_pos hstep, hstep]
      constructor
      · intro h
        cases h
      · rintro ⟨h, _⟩
        cases h
    · rw [if_neg hstep]
      simp only [Bool.not_eq_true] at hstep
      simp only [hstep, true_and]
      cases hknown : known.get? (.str x) with
      | none => simp [pure, Except.pure]
      | some i => cases hport : i.outputs.contains (.str p) <;> simp [pure, Except.pure, hport]

/-! ## What is offered -/

theorem sourceLabels_names (step : Node) {typed} (h : '/' ∉ typed.toList) :
    sourceLabels w known (some step) (.str typed) =
      .ok (some ((known.map (·.1) ++ w.inputNames.members).filter fun n => !n.same step)) := by
  unfold sourceLabels
  simp only [Text.parts_of_not_mem h]
  rfl

theorem sourceLabels_ports (step : Node) {x y} (hx : '/' ∉ x.toList) (hy : '/' ∉ y.toList) {i}
    (hi : known.get? (.str x) = some i) :
    sourceLabels w known (some step) (.str (x ++ "/" ++ y)) = .ok (some i.outputs.members) := by
  have hparts : Text.parts '/' (x ++ "/" ++ y) = [x, y] := by
    rw [slash_eq, Text.parts_append, Text.parts_of_not_mem hx, Text.parts_of_not_mem hy]
    rfl
  unfold sourceLabels
  simp only [hparts, hi]
  rfl

/-- After a known step and a slash, the ports that are offered are those that are accepted
there, unless the step is the one that takes the source, the port has a slash in its name, or
the whole is the name of an input. Before a slash, all inputs are offered but one of the name of
the step, and all of them are accepted. -/
theorem offered_iff_accepted (w : Workflow) (known : Steps) (step : Node) :
    (∀ (x y : String) (i : Interface), '/' ∉ x.toList → '/' ∉ y.toList →
      known.get? (.str x) = some i →
      ∃ labels, sourceLabels w known (some step) (.str (x ++ "/" ++ y)) = .ok (some labels) ∧
        ∀ p, Accepts w known (some step) (.str (x ++ "/" ++ p)) ↔
          w.inputNames.contains (.str (x ++ "/" ++ p)) = true ∨
            (labels.any fun l => l.isName p) = true ∧ '/' ∉ p.toList ∧ step.isName x = false) ∧
    ∀ typed : String, '/' ∉ typed.toList →
      ∃ labels, sourceLabels w known (some step) (.str typed) = .ok (some labels) ∧
        ∀ n ∈ w.inputNames.members, (n ∈ labels ↔ n.same step = false) ∧
          (n.isKey = true → n.same n = true → Accepts w known (some step) n) := by
  constructor
  · intro x y i hx hy hi
    refine ⟨i.outputs.members, sourceLabels_ports step hx hy hi, fun p => ?_⟩
    have hport : i.outputs.contains (.str p) = i.outputs.members.any fun l => l.isName p := by
      simp only [NameSet.contains, Node.same_text]
    rw [accepts_iff rfl rfl, sourceFault?_none_iff hx p, hi, ← hport]
    refine or_congr_right ⟨?_, ?_⟩
    · rintro ⟨hp, hstep, j, hj, hout⟩
      cases hj
      exact ⟨hout, hp, hstep⟩
    · rintro ⟨hout, hp, hstep⟩
      exact ⟨hp, hstep, i, rfl, hout⟩
  · intro typed htyped
    refine ⟨_, sourceLabels_names step htyped, fun n hn => ⟨?_, accepts_input hn⟩⟩
    simp [hn]

/-- A workflow with an input that has the name of a step. -/
def sharedNames : Workflow := ⟨.null, .null, .null, ⟨[.str "reads", .str "sort"]⟩, .empty⟩

/-- A step is offered its own output and cannot take it; it is not offered an input of its name
and can take it. -/
theorem offered_iff_accepted_sample :
    sourceLabels sharedNames sampleKnown (some (.str "sort")) (.str "sort/b") =
      .ok (some [.str "bam"]) ∧
    ¬Accepts sharedNames sampleKnown (some (.str "sort")) (.str "sort/bam") ∧
    Accepts sharedNames sampleKnown (some (.str "sort")) (.str "align/bam") ∧
    (∃ labels, sourceLabels sharedNames sampleKnown (some (.str "sort")) (.str "") = .ok (some labels) ∧
      .str "reads" ∈ labels ∧ .str "sort" ∉ labels) ∧
    Accepts sharedNames sampleKnown (some (.str "sort")) (.str "sort") := by
  obtain ⟨hports, hnames⟩ := offered_iff_accepted sharedNames sampleKnown (.str "sort")
  have hsorting : sampleKnown.get? (.str "sort") = some ⟨⟨[.str "bam"]⟩, ⟨[.str "bam"]⟩⟩ := by
    with_unfolding_all rfl
  have haligning : sampleKnown.get? (.str "align") = some ⟨⟨[.str "reads"]⟩, ⟨[.str "bam"]⟩⟩ := by
    with_unfolding_all rfl
  obtain ⟨_, _, howns⟩ := hports "sort" "b" _ (by decide) (by decide) hsorting
  obtain ⟨_, hother, hothers⟩ := hports "align" "" _ (by decide) (by decide) haligning
  obtain ⟨labels, hlabels, hinputs⟩ := hnames "" (by decide)
  obtain ⟨hreads, _⟩ := hinputs (.str "reads") (by simp [sharedNames])
  obtain ⟨hsort, haccepted⟩ := hinputs (.str "sort") (by simp [sharedNames])
  have hlabel : sourceLabels sharedNames sampleKnown (some (.str "sort")) (.str "align/") =
      .ok (some [.str "bam"]) := by with_unfolding_all rfl
  obtain rfl := Option.some.inj (Except.ok.inj (hlabel.symm.trans hother))
  refine ⟨by with_unfolding_all rfl, ?_, ?_, ⟨labels, hlabels, hreads.mpr (by decide +kernel), ?_⟩,
    haccepted rfl (by decide +kernel)⟩
  · intro h
    rcases (howns "bam").mp h with hinput | ⟨_, _, hself⟩
    · exact absurd hinput (by decide +kernel)
    · exact absurd hself (by decide)
  · exact (hothers "bam").mpr (.inr ⟨by with_unfolding_all rfl, by decide, by with_unfolding_all rfl⟩)
  · intro h
    exact absurd (hsort.mp h) (by decide +kernel)

end CwlService.Workflow
