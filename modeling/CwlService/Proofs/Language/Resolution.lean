import CwlService.Proofs.Language.Symbols

/-! # How deep references resolve

A type that the last reading made refers to types of the same reading and, where a
reference looks forward, to types of the reading before. So a path that starts at an entry
of the dictionary comes one reading closer to the first with every forward reference that
it crosses, and after three of them it ends at a name that stands for nothing. -/
namespace CwlService.Language

theorem readings_known {s last R₁ R₂ R₃ m₁ b₁ m₂ b₂ m₃ b₃ symbols}
    (h₁ : Reading 1 none s .empty start m₁ symbols R₁ b₁)
    (h₂ : Reading 2 none s R₁ b₁ m₂ symbols R₂ b₂) (h₃ : Reading 3 last s R₂ b₂ m₃ symbols R₃ b₃)
    {names} (hnames : ∀ n ∈ names, ∃ o, R₃ n = some o) : Known 2 R₁ names ∧ Known 3 R₂ names := by
  have hone : ∀ n ∈ names, ∃ o, R₁ n = some o := by
    intro n hn
    have hthree := hnames n hn
    rw [h₃.has_iff, h₂.has_iff] at hthree
    rw [h₁.has_iff] at hthree ⊢
    grind
  refine ⟨fun n hn => .inr (hone n hn), fun n hn => .inr ?_⟩
  exact (h₂.has_iff n).mpr (.inr (.inr (hone n hn)))

/-- A dictionary whose types go back to origins that are made in time. -/
def Traced (fresh : Nat → Nat → Prop) (s : Schema) (l : Language) (R : Registry) : Prop :=
  origins s = .ok (l, R) ∧ Agrees R l ∧ ∀ n o, R n = some o → Created fresh 3 o

/-- If every name is defined after one reading, names stand for nothing only after three
forward references, whatever the readings list. -/
theorem RefersToDefined.traced {s l log} (hs : RefersToDefined s) (h : ofSchema s = .ok (l, log)) :
    ∃ R, Traced (fun _ _ => True) s l R := by
  obtain ⟨m₁, symbols₁, R₁, b₁, m₂, symbols₂, R₂, b₂, last, m₃, symbols₃, R₃, b₃, h₁, h₂, _, h₃, rfl,
    horigins⟩ := track_cases h
  have hone : ∀ n ∈ s.references, ∃ o, R₁ n = some o := by
    intro n hn
    rw [← h₁.agrees.isSome_iff]
    exact hs b₁ h₁.returns n hn
  have htwo : ∀ n ∈ s.references, ∃ o, R₂ n = some o := fun n hn =>
    (h₂.has_iff n).mpr (.inr (.inr (hone n hn)))
  have hf₁ : Finished (fun _ _ => True) s (fun _ => True) 1 R₁ :=
    h₁.finished .empty (fun _ _ => .inl rfl) trivial (fun _ _ => trivial) fun _ _ => .inr fun _ => trivial
  have hf₂ : Finished (fun _ _ => True) s (fun _ => True) 2 R₂ :=
    h₂.finished hf₁ (fun n hn => .inr (hone n hn)) trivial (fun _ _ => trivial)
      fun _ _ => .inr fun _ => trivial
  have hf₃ : Finished (fun _ _ => True) s (fun _ => True) 3 R₃ :=
    h₃.finished hf₂ (fun n hn => .inr (htwo n hn)) trivial (fun _ _ => trivial)
      fun _ _ => .inr fun _ => trivial
  exact ⟨R₃, horigins, h₃.agrees, hf₃.created⟩

/-- Where types extend earlier types only, every type is made by the reading that its
forward references lead to. -/
theorem traced_of_extendsEarlier {s l log} (h : ofSchema s = .ok (l, log))
    (hreferences : ∀ n ∈ s.references, (l.get? n).isSome) (hextends : s.extendsEarlier [] = true) :
    ∃ R, Traced Eq s l R := by
  obtain ⟨m₁, symbols₁, R₁, b₁, m₂, symbols₂, R₂, b₂, last, m₃, symbols₃, R₃, b₃, h₁, h₂, hlast, h₃,
    rfl, horigins⟩ := track_cases h
  obtain ⟨rfl, rfl⟩ := readings_symbols hextends h₁ h₂ hlast h₃
  obtain ⟨hk₂, hk₃⟩ := readings_known h₁ h₂ h₃ fun n hn =>
    (h₃.agrees.isSome_iff n).mp (hreferences n hn)
  let listed (n : String) : Prop := (symbols₁.any fun k => k.isName n) = true
  have hf₁ : Finished Eq s listed 1 R₁ :=
    h₁.finished .empty (fun _ _ => .inl rfl) rfl (fun _ => id) fun _ => .inl
  have hf₂ : Finished Eq s listed 2 R₂ := h₂.finished hf₁ hk₂ rfl (fun _ => id) fun _ => .inl
  have hf₃ : Finished Eq s listed 3 R₃ := h₃.finished hf₂ hk₃ rfl (fun _ => id) fun _ => .inl
  exact ⟨R₃, horigins, h₃.agrees, hf₃.created⟩

/-- Every path of types that starts at an entry of the dictionary is the path of an origin.
After `k` forward references, for `k` up to two, it is at a type that the reading `3 - k`
made, and it is at a name that stands for nothing exactly after three. -/
theorem follow_forward_references {s : Schema} {l : Language} {log : List LogEntry}
    (h : ofSchema s = .ok (l, log)) (hreferences : ∀ n ∈ s.references, (l.get? n).isSome)
    (hextends : s.extendsEarlier [] = true) :
    ∃ R, origins s = .ok (l, R) ∧ ∀ n t, l.get? n = some t → ∃ o, R n = some o ∧ ∀ ms,
      (o.follow ms = none ∧ t.follow ms = none) ∨
        ∃ k o' t', o.follow ms = some (k, o') ∧ t.follow ms = some t' ∧ Tells o' t' ∧ k ≤ 3 ∧
          (k ≤ 2 → o'.reading? = some (3 - k)) ∧ ((∃ name, t' = .unresolved name) ↔ k = 3) := by
  obtain ⟨R, horigins, hagrees, hcreated⟩ := traced_of_extendsEarlier h hreferences hextends
  refine ⟨R, horigins, ?_⟩
  intro n t ht
  rcases hagrees n with ⟨_, hnone⟩ | ⟨o, u, ho, hu, htells, _⟩
  · rw [hnone] at ht
    cases ht
  rw [hu] at ht
  cases ht
  refine ⟨o, ho, fun ms => ?_⟩
  rcases htells.follow_created (hcreated n o ho) ms with
    hnone | ⟨k, o', t', hfo, hft, htells', hk, hc, hend, hraw⟩
  · exact .inl hnone
  · refine .inr ⟨k, o', t', hfo, hft, htells', hk, ?_, hraw⟩
    intro hle
    obtain ⟨q, hq⟩ : ∃ q, 3 - k = q + 1 := ⟨2 - k, by omega⟩
    rw [hq] at hc ⊢
    exact hc.reading hend

/-- Workflows of steps that run workflows, and two kinds of tools beside them. -/
def nesting : Schema := .union [
  .enum (.text "PrimitiveType" false) [] (.list [.text "string" false]),
  .record (.text "Process" false) false [] [.field (.text "class" false) none (.ref "string")],
  .record (.text "CommandLineTool" false) false [.named "Process"] [],
  .record (.text "ExpressionTool" false) false [.named "Process"] [],
  .record (.text "Workflow" false) false [.named "Process"]
    [.field (.text "steps" false) none (.array (.ref "Step"))],
  .record (.text "Step" false) false [] [.field (.text "run" false) none (.ref "Workflow")]]

/-- From a workflow to the steps of a workflow that is inside two others. -/
def toInnerStep : List Move := [.field "steps" 0, .item 0, .field "run" 0, .field "steps" 0,
  .item 0, .field "run" 0, .field "steps" 0, .item 0]

theorem follow_forward_references_nesting : ∃ l log R t o o',
    ofSchema nesting = .ok (l, log) ∧ (∀ n ∈ nesting.references, (l.get? n).isSome) ∧
    nesting.extendsEarlier [] = true ∧ origins nesting = .ok (l, R) ∧
    l.get? "Workflow" = some t ∧ R "Workflow" = some o ∧
    t.follow toInnerStep = some (.unresolved "Step") ∧ o.follow toInnerStep = some (3, o') := by
  obtain ⟨l, log, t, h, hreferences, ht, hpath⟩ : ∃ l log t, ofSchema nesting = .ok (l, log) ∧
      (∀ n ∈ nesting.references, (l.get? n).isSome) ∧ l.get? "Workflow" = some t ∧
      t.follow toInnerStep = some (.unresolved "Step") :=
    ⟨_, _, _, by with_unfolding_all rfl, by decide +kernel, by with_unfolding_all rfl, by with_unfolding_all rfl⟩
  have hextends : nesting.extendsEarlier [] = true := by decide
  obtain ⟨R, horigins, hentries⟩ := follow_forward_references h hreferences hextends
  obtain ⟨o, ho, hfollow⟩ := hentries "Workflow" t ht
  rcases hfollow toInnerStep with ⟨_, hnone⟩ | ⟨k, o', t', hfo, hft, _, _, _, hraw⟩
  · rw [hpath] at hnone
    cases hnone
  · rw [hpath] at hft
    cases hft
    obtain rfl := hraw.mp ⟨"Step", rfl⟩
    exact ⟨l, log, R, t, o, o', h, hreferences, hextends, horigins, ht, ho, hpath, hfo⟩

end CwlService.Language
