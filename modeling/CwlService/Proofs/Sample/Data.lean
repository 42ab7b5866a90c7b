import CwlService.Proofs.Node.Table
import CwlService.Proofs.Sample.Values
import CwlService.Proofs.Workspace.Links
import CwlService.Sample.Data

/-! # What sample data hold

There is a value for each input of a process, and for each output of each of its steps whose
process is at hand, in the step itself or in a file that the step names. -/
namespace CwlService.Sample

/-! ## Values by name -/

/-- A part of a process, as its sample data see it. -/
def portsOf (process : Node) (name : String) : Except Fault (List ListingEntry) :=
  (Listing.asMap ((process.field? name).getD .null) (.str "id")).2

variable {P : Yaml.Reader → Prop}

theorem values_yields (ports types) : Yields P (values ports types) fun vs =>
    ∃ es, (Listing.asMap ports (.str "id")).2 = .ok es ∧ ∀ e ∈ es, ∃ v ∈ vs, v.1 = e.key := by
  refine .bind (.lift _) fun es hes => ?_
  refine (Meets.mapM (A := fun _ => True) (R := fun e v => v.1 = e.key) fun e _ => ?_).imp fun vs hvs =>
    ⟨es, hes, Node.exists_of_forall₂ hvs⟩
  exact .bind (value_draws types _ _ _ _) fun _ _ => .pure rfl

theorem fieldOf_eq {process n name} (h : fieldOf process name = .ok n) :
    process.isMap = true ∧ n = (process.field? name).getD .null := by
  cases process with
  | map form es =>
    cases h
    exact ⟨rfl, rfl⟩
  | _ => cases h

theorem outputs_yields (process types) : Yields P (outputs process types) fun vs =>
    ∃ es, portsOf process "outputs" = .ok es ∧ ∀ e ∈ es, ∃ v ∈ vs, v.1 = e.key := by
  refine .bind (.lift _) fun n hn => ?_
  rw [(fieldOf_eq hn).2]
  exact values_yields _ types

/-! ## Steps -/

/-- The process that a step runs, if it is at hand: it stands in the step, or it is the data of
a file that the step names. -/
def AtHand (w : Workspace) (P : Yaml.Reader → Prop) (doc run process : Node) : Prop :=
  match run with
  | .map .. => process = run
  | .text target _ => ∃ path text, w.resolve doc target = .ok path ∧ w.find path = .ok (.file text) ∧
      ∀ r, P r → ((Yaml.Reader.load text).run.run r).1 = .ok process
  | _ => False

theorem reading_run {α : Type} (x : Yaml.Reader.Read α) (r : Yaml.Reader) :
    (Document.reading x).run.run r = ((x.run.run r).1.mapError .text, (x.run.run r).2) := rfl

theorem stepOutputs_yields {w} (hw : w.Steady P) (doc run : Node) (types : Node.Entries) :
    Yields P (stepOutputs w doc run types) fun vs => ∀ process, AtHand w P doc run process →
      ∃ es, portsOf process "outputs" = .ok es ∧ ∀ e ∈ es, ∃ v ∈ vs, v.1 = e.key := by
  unfold stepOutputs
  split
  · refine (outputs_yields _ types).imp ?_
    rintro vs hvs _ rfl
    exact hvs
  · refine .bind (.lift _) fun path hpath => .bind (.lift _) fun found hfound => ?_
    cases found with
    | file text =>
      have hread : ∀ r, P r → P ((Document.reading (Yaml.Reader.load text)).run.run r).2 ∧
          ∀ n, ((Document.reading (Yaml.Reader.load text)).run.run r).1 = .ok n →
            ∃ r, P r ∧ ((Yaml.Reader.load text).run.run r).1 = .ok n := by
        intro r hr
        rw [reading_run]
        refine ⟨(hw.written path text hfound r hr).2, fun n hn => ⟨r, hr, ?_⟩⟩
        cases hload : ((Yaml.Reader.load text).run.run r).1 with
        | error f => rw [hload] at hn; cases hn
        | ok m => rw [hload] at hn; cases hn; rfl
      refine .bind (.withLinks hread) fun n hn => .bind (.withTypes _) fun own _ => ?_
      refine (outputs_yields n own).imp fun vs hvs => ?_
      rintro process ⟨path', text', hpath', hfound', hload⟩
      obtain ⟨r, hr, hn⟩ := hn
      rw [hpath] at hpath'
      cases hpath'
      rw [hfound] at hfound'
      cases hfound'
      have heq := (hload r hr).symm.trans hn
      rw [Except.ok.inj heq]
      exact hvs
    | _ =>
      refine .pure ?_
      rintro process ⟨path', text', hpath', hfound', _⟩
      rw [hpath] at hpath'
      cases hpath'
      rw [hfound] at hfound'
      cases hfound'
  · rename_i hmap htext
    refine .pure fun process hprocess => ?_
    unfold AtHand at hprocess
    split at hprocess
    · exact (hmap _ _ rfl).elim
    · exact (htext _ _ rfl).elim
    · exact hprocess.elim

/-- The inputs of a process are among the named. -/
def CoversInputs (process : Node) (named : String → Prop) : Prop :=
  ∃ ins, portsOf process "inputs" = .ok ins ∧ ∀ e ∈ ins, ∀ s, e.key.isName s = true → named s

/-- The outputs of each step whose process is at hand are among the named. All steps are maps. -/
def CoversSteps (w : Workspace) (P : Yaml.Reader → Prop) (doc process : Node) (named : String → Prop) :
    Prop :=
  ∃ steps, portsOf process "steps" = .ok steps ∧ ∀ e ∈ steps, e.value.isMap = true ∧
    ∀ t, e.key.isName t = true → ∀ inner, AtHand w P doc ((e.value.field? "run").getD .null) inner →
      ∃ outs, portsOf inner "outputs" = .ok outs ∧
        ∀ o ∈ outs, ∀ p, o.key.isName p = true → named (t ++ "/" ++ p)

theorem joined_yields (e : ListingEntry) (o : Node × Node) :
    Yields P (do
      let stem ← joinName e.key "/"
      match o.1 with
      | .text port _ => pure (Node.str (stem ++ port), o.2)
      | _ => throw Fault.wrongKind : Draw (Node × Node)) fun v =>
      ∀ t p, e.key.isName t = true → o.1.isName p = true → v.1 = Node.str (t ++ "/" ++ p) := by
  refine .bind (.lift _) fun stem hstem => ?_
  split
  · rename_i port styled hport
    refine .pure fun t p ht hp => ?_
    obtain ⟨_, ht⟩ := Node.isName_iff.mp ht
    obtain ⟨_, hp⟩ := Node.isName_iff.mp hp
    rw [ht] at hstem
    rw [hport] at hp
    cases hstem
    cases hp
    rfl
  · exact .throw trivial

theorem stepValues_yields {w} (hw : w.Steady P) (doc process : Node) (types : Node.Entries) :
    Yields P (stepValues w doc process types) fun vs =>
      CoversSteps w P doc process fun s => ∃ v ∈ vs, v.1 = Node.str s := by
  refine .bind (.lift _) fun n hn => .bind (.lift _) fun steps hsteps => ?_
  rw [(fieldOf_eq hn).2] at hsteps
  refine .bind (Meets.mapM (R := fun e vs => e.value.isMap = true ∧ ∀ t, e.key.isName t = true →
    ∀ inner, AtHand w P doc ((e.value.field? "run").getD .null) inner →
      ∃ outs, portsOf inner "outputs" = .ok outs ∧ ∀ o ∈ outs, ∀ p, o.key.isName p = true →
        ∃ v ∈ vs, v.1 = Node.str (t ++ "/" ++ p)) fun e _ => ?_) fun perStep hperStep => .pure ?_
  · refine .bind (.lift _) fun run hrun => ?_
    obtain ⟨hmap, rfl⟩ := fieldOf_eq hrun
    refine .bind (stepOutputs_yields hw doc _ types) fun outs houts => ?_
    refine (Meets.mapM fun o _ => joined_yields e o).imp fun vs hvs => ⟨hmap, ?_⟩
    intro t ht inner hinner
    obtain ⟨es, hes, hkeys⟩ := houts inner hinner
    refine ⟨es, hes, fun o ho p hp => ?_⟩
    obtain ⟨out, hout, hkey⟩ := hkeys o ho
    obtain ⟨v, hv, hname⟩ := Node.exists_of_forall₂ hvs out hout
    exact ⟨v, hv, hname t p ht (hkey ▸ hp)⟩
  · refine ⟨steps, hsteps, fun e he => ?_⟩
    obtain ⟨vs, hvs, hmap, hcovers⟩ := Node.exists_of_forall₂ hperStep e he
    refine ⟨hmap, fun t ht inner hinner => ?_⟩
    obtain ⟨outs, houts, hnames⟩ := hcovers t ht inner hinner
    refine ⟨outs, houts, fun o ho p hp => ?_⟩
    obtain ⟨v, hv, hname⟩ := hnames o ho p hp
    exact ⟨v, List.mem_flatten.mpr ⟨vs, hvs, hv⟩, hname⟩

/-! ## All together -/

theorem hasField_mapOf {entries : List (Node × Node)} {k v s} (h : (k, v) ∈ entries)
    (hk : k.isName s = true) :
    Node.Entries.hasField (entries.foldl (fun es e => es.put e.1 e.2) []) s = true := by
  have hfold : ∀ (entries : List (Node × Node)) (es : Node.Entries),
      es.hasField s = true ∨ (k, v) ∈ entries →
      Node.Entries.hasField (entries.foldl (fun es e => es.put e.1 e.2) es) s = true := by
    intro entries
    induction entries with
    | nil => exact fun es h => h.elim id fun h => by cases h
    | cons e rest ih =>
      intro es h
      refine ih _ ?_
      rw [Node.hasField_put]
      rcases h with h | h
      · exact .inl (.inl h)
      · rcases List.mem_cons.mp h with rfl | h
        · exact .inl (.inr hk)
        · exact .inr h
  exact hfold entries [] (.inr h)

/-- The sample data of a process cover its inputs and its steps. -/
theorem data_yields {w} (hw : w.Steady P) (doc process : Node) (types : Node.Entries) :
    Yields P (data w doc process types) fun sample => ∃ values outs,
      sample = .record [("inputs", .map .plain values), ("outputs", outs)] ∧
      CoversInputs process (fun s => Node.Entries.hasField values s = true) ∧
      CoversSteps w P doc process fun s => Node.Entries.hasField values s = true := by
  refine .bind (.lift _) fun n hn => .bind (values_yields n types) fun ins hins => ?_
  rw [(fieldOf_eq hn).2] at hins
  refine .bind (stepValues_yields hw doc process types) fun steps hsteps => ?_
  refine .bind (outputs_yields process types) fun outs _ => .pure ⟨_, mapOf outs, rfl, ?_, ?_⟩
  · obtain ⟨es, hes, hkeys⟩ := hins
    refine ⟨es, hes, fun e he s hs => ?_⟩
    obtain ⟨v, hv, hkey⟩ := hkeys e he
    exact hasField_mapOf (List.mem_append_left _ hv) (hkey ▸ hs)
  · obtain ⟨es, hes, hcovers⟩ := hsteps
    refine ⟨es, hes, fun e he => ⟨(hcovers e he).1, fun t ht inner hinner => ?_⟩⟩
    obtain ⟨outs, houts, hnames⟩ := (hcovers e he).2 t ht inner hinner
    refine ⟨outs, houts, fun o ho p hp => ?_⟩
    obtain ⟨v, hv, hname⟩ := hnames o ho p hp
    refine hasField_mapOf (List.mem_append_right _ hv) ?_
    rw [hname]
    exact beq_self_eq_true _

end CwlService.Sample
