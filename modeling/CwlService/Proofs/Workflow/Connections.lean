import CwlService.Proofs.Node.Placed
import CwlService.Proofs.Text.Split
import CwlService.Proofs.Workflow.Sources

/-! # Which problems the connections of a workflow have

Checking goes through steps and outputs with a set of the inputs that nothing has used yet.
Every part of the check is described by when it comes to an end, by the errors that it reports
and by the sources that it takes out of that set; the parts are put together as the check
itself is. -/
namespace CwlService.Workflow

open List

/-! ## Checks that come to an end -/

theorem without_append (names : NameSet) (first second : List Node) :
    without names (first ++ second) = without (without names first) second := foldl_append

/-- A check that comes to an end. -/
def Ends {α : Type} (x : Checking α) (t : Tally) (a : α) (t' : Tally) : Prop :=
  x.run.run t = (.ok a, t')

variable {t t' : Tally} {α : Type} {e : Except Fault α} {s : String} {known : Steps} {n src : Node}
  {w : Workflow} {l : Listing}

theorem Ends.bind {β : Type} {x} {f : α → Checking β} {t'' b} (h : Ends (x >>= f) t b t'') :
    ∃ a t', Ends x t a t' ∧ Ends (f a) t' b t'' := of_run_bind h

theorem Ends.pure {a b : α} (h : Ends (Pure.pure a) t b t') : b = a ∧ t' = t := by
  cases h
  exact ⟨rfl, rfl⟩

theorem Ends.lift {a} (h : Ends (liftM e) t a t') : e = .ok a ∧ t' = t := by
  cases e with
  | error f => cases h
  | ok b =>
    cases h
    exact ⟨rfl, rfl⟩

/-- A check that comes to an end exactly if some places are known and the sources that it takes
out can be looked up, and that then reports `errors`. -/
def Runs (w : Workflow) (x : Checking Unit) (placed : Prop) (errors : List Diagnostic)
    (sources : List Node) : Prop :=
  ∀ t t', Ends x t () t' ↔ placed ∧ (∀ src ∈ sources, Legible w src) ∧
    t' = ⟨without t.unused sources, t.problems ++ errors⟩

namespace Runs

variable {w : Workflow} {placed placed' : Prop} {errors errors' : List Diagnostic}
  {sources sources' : List Node}

theorem pure : Runs w (Pure.pure ()) True [] [] := by
  intro t t'
  simp only [append_nil, not_mem_nil, false_imp_iff, implies_true, true_and]
  constructor
  · intro h
    exact (Ends.pure h).2
  · rintro rfl
    rfl

variable {y : Unit → Checking Unit} {x : Checking Unit}

theorem report_bind (d : Diagnostic) (hy : Runs w (y ()) placed errors sources) :
    Runs w (report d >>= y) placed (d :: errors) sources := by
  intro t t'
  rw [append_cons]
  exact hy ⟨t.unused, t.problems ++ [d]⟩ t'

theorem bind_iff (hx : Runs w x placed errors sources) (t t' : Tally) :
    Ends (x >>= y) t () t' ↔ placed ∧ (∀ src ∈ sources, Legible w src) ∧
      Ends (y ()) ⟨without t.unused sources, t.problems ++ errors⟩ () t' := by
  constructor
  · intro h
    obtain ⟨_, t₁, h, hrest⟩ := h.bind
    obtain ⟨hplaced, hlegible, rfl⟩ := (hx t t₁).mp h
    exact ⟨hplaced, hlegible, hrest⟩
  · rintro ⟨hplaced, hlegible, hrest⟩
    have hfirst := (hx t _).mpr ⟨hplaced, hlegible, rfl⟩
    exact (run_bind hfirst).trans hrest

theorem bind (hx : Runs w x placed errors sources) (hy : Runs w (y ()) placed' errors' sources') :
    Runs w (x >>= y) (placed ∧ placed') (errors ++ errors') (sources ++ sources') := by
  intro t t'
  rw [hx.bind_iff, hy _ _, without_append, forall_mem_append, append_assoc]
  constructor
  · rintro ⟨hplaced, hlegible, hplaced', hlegible', ht⟩
    exact ⟨⟨hplaced, hplaced'⟩, ⟨hlegible, hlegible'⟩, ht⟩
  · rintro ⟨⟨hplaced, hplaced'⟩, ⟨hlegible, hlegible'⟩, ht⟩
    exact ⟨hplaced, hlegible, hplaced', hlegible', ht⟩

theorem lift_bind {y : α → Checking Unit} (hy : ∀ a, e = .ok a → Runs w (y a) placed errors sources) :
    Runs w (liftM e >>= y) (e.isOk = true ∧ placed) errors sources := by
  cases e with
  | ok a =>
    rw [show (Except.ok a : Except Fault α).isOk = true from rfl, eq_self, true_and]
    exact hy a rfl
  | error f =>
    intro t t'
    constructor
    · intro h
      cases h
    · rintro ⟨⟨h, _⟩, _⟩
      cases h

theorem congr (h : Runs w x placed errors sources) (hplaced : placed ↔ placed') :
    Runs w x placed' errors sources := by
  rw [← propext hplaced]
  exact h

end Runs

/-! ## Sources -/

theorem slash_eq : "/" = String.singleton '/' := rfl

variable {step : Option Node}

theorem not_isOutput_of_parts {part} (h : Text.parts '/' s = [part]) : ¬IsOutput known step s := by
  rintro ⟨t, p, i, hs, _⟩
  rw [slash_eq] at hs
  exact Text.not_cut_of_parts_singleton h t p hs

theorem isOutput_iff_of_parts {t p} (h : Text.parts '/' s = [t, p]) : IsOutput known step s ↔
      (step.any fun id => id.isName t) = false ∧
        ∃ i, known.get? (.str t) = some i ∧ i.outputs.contains (.str p) = true := by
  have hcut := Text.cut_iff_of_parts_pair h
  unfold IsOutput
  rw [slash_eq]
  constructor
  · rintro ⟨t', p', i, hs, hstep, hi, hp⟩
    obtain ⟨rfl, rfl⟩ := (hcut t' p').mp hs
    exact ⟨hstep, i, hi, hp⟩
  · rintro ⟨hstep, i, hi, hp⟩
    exact ⟨t, p, i, (hcut t p).mpr ⟨rfl, rfl⟩, hstep, hi, hp⟩

theorem sourceFault?_iff {fault} (hinput : w.inputNames.contains src = false)
    (h : sourceFault? w known step src = .ok fault) :
    fault = none ↔ Resolvable w known step src := by
  unfold sourceFault? at h
  simp only [Resolvable, hinput, Bool.false_eq_true, false_or]
  dsimp only at h
  split at h
  · rename_i s styled
    simp only [Node.text?, Option.some.injEq, exists_eq_left']
    split at h
    · rename_i hparts
      cases h
      simpa using not_isOutput_of_parts hparts
    · rename_i from_ port hparts
      rw [isOutput_iff_of_parts hparts]
      split at h
      · rename_i hstep
        cases h
        simp [hstep]
      · rename_i hstep
        split at h
        · rename_i hknown
          cases h
          simp [hknown]
        · rename_i i hknown
          split at h
          · rename_i hport
            cases h
            simp only [true_iff]
            exact ⟨by simpa using hstep, i, hknown, hport⟩
          · rename_i hport
            cases h
            simp [hknown, hport]
    · cases h
  · rename_i hother
    cases h
    simp only [reduceCtorEq, false_iff]
    rintro ⟨s, hs, _⟩
    cases src with
    | text s styled => exact hother s styled rfl
    | _ => cases hs

theorem isOk_sourceFault? (w known step src) :
    (sourceFault? w known step src).isOk = true ↔ ∀ s ∈ src.text?, (Text.parts '/' s).length ≤ 2 := by
  unfold sourceFault?
  dsimp only
  split
  · rename_i s styled
    simp only [Node.text?, Option.mem_def, Option.some.injEq, forall_eq']
    split
    · rename_i hparts
      simp [hparts, pure, Except.pure, Except.isOk, Except.toBool]
    · rename_i hparts
      simp only [hparts, length_cons, length_nil, Nat.reduceAdd, Nat.le_refl, iff_true]
      repeat' split
      all_goals rfl
    · rename_i hone htwo
      constructor
      · intro h
        cases h
      · intro h
        rcases hparts : Text.parts '/' s with _ | ⟨a, _ | ⟨b, _ | _⟩⟩
        · exact absurd hparts (Text.parts_ne_nil '/' s)
        · exact absurd hparts (hone a)
        · exact absurd hparts (htwo a b)
        · rw [hparts] at h; simp at h
  · rename_i hother
    refine ⟨fun _ s hs => ?_, fun _ => rfl⟩
    cases src with
    | text s styled => exact absurd rfl (hother s styled)
    | _ => cases hs

theorem checkSource_null (span : Span) (hsrc : src.isNull = true) :
    checkSource w known step src span = pure () := by
  unfold checkSource
  rw [if_pos hsrc]

theorem itemSources_cons (list : Node) (place : Option Place) (src : Node) (rest : Node.Items)
    (first : Nat) : itemSources list ((place, src) :: rest) first =
      (if src.isNull then [] else [⟨src, (list.itemSpan first).toOption⟩]) ++
        itemSources list rest (first + 1) := by
  unfold itemSources
  rw [zipIdx_cons, map_cons, filter_cons]
  cases src.isNull <;> simp

section

variable (w : Workflow) (known : Steps) (step : Option Node)

theorem checkSource_runs (span) (hsrc : src.isNull = false) :
    Runs w (checkSource w known step src span) True (sourceErrors w known step ⟨src, some span⟩) [src] := by
  intro t t'
  simp only [forall_mem_singleton, true_and, Legible, ← isOk_sourceFault? w known step src, sourceErrors]
  unfold checkSource checkTarget
  rw [hsrc]
  cases src.isKey with
  | false =>
    refine ⟨fun h => ?_, fun h => ?_⟩
    · cases h
    · cases h.1.1
  | true =>
    cases w.inputNames.contains src with
    | true =>
      refine ⟨fun h => ?_, ?_⟩
      · cases h
        exact ⟨⟨rfl, .inl rfl⟩, by simp [without]⟩
      · rintro ⟨_, rfl⟩
        rw [if_pos (Bool.or_true _), append_nil]
        rfl
    | false =>
      cases sourceFault? w known step src with
      | error f =>
        refine ⟨fun h => ?_, fun h => ?_⟩
        · cases h
        · rcases h.1.2 with h | h <;> cases h
      | ok fault =>
        refine ⟨fun h => ?_, ?_⟩
        · cases fault <;> cases h
          · exact ⟨⟨rfl, .inr rfl⟩, by simp [without]⟩
          · exact ⟨⟨rfl, .inr rfl⟩, rfl⟩
        · rintro ⟨_, rfl⟩
          cases fault with
          | none =>
            simp only [Bool.not_true, Bool.or_self, Bool.false_eq_true, if_false, append_nil]
            rfl
          | some message => rfl

theorem checkSources_runs (list : Node) : ∀ items first,
    Runs w (checkSources w known step list first items)
      (∀ i ∈ items.zipIdx first, (list.itemSpan i.2).isOk = true)
      ((itemSources list items first).flatMap (sourceErrors w known step))
      ((itemSources list items first).map (·.node))
  | [], first => Runs.pure.congr (by simp)
  | (place, src) :: rest, first => by
    rw [zipIdx_cons, forall_mem_cons, itemSources_cons, flatMap_append, map_append]
    refine .lift_bind fun span hspan => ?_
    have hrest := checkSources_runs list rest (first + 1)
    cases hsrc : src.isNull with
    | true =>
      rw [checkSource_null span hsrc]
      exact hrest
    | false =>
      have hsource := checkSource_runs w known step span hsrc
      rw [hspan]
      simp only [Bool.false_eq_true, if_false, flatMap_singleton]
      exact .congr (.bind hsource hrest) (and_iff_right trivial)

theorem checkWritten_runs (src : Node) (span : Span) :
    Runs w (checkWritten w known step src span) (WrittenPlaced src)
      ((writtenSources src (some span)).flatMap (sourceErrors w known step))
      ((writtenSources src (some span)).map (·.node)) := by
  cases src with
  | seq form items => exact checkSources_runs w known step _ items 0
  | text s styled =>
    rw [writtenSources, flatMap_singleton]
    exact checkSource_runs w known step span rfl
  | _ => exact .pure

theorem checkPort_runs (field : String) (port : Node) (span : Span) :
    Runs w (checkPort w known step field port span) (PortPlaced field port)
      ((sourcesOf field port (some span)).flatMap (sourceErrors w known step))
      ((sourcesOf field port (some span)).map (·.node)) := by
  unfold checkPort
  cases port with
  | map form es =>
    simp only [sourcesOf, PortPlaced]
    cases Node.Entries.field? es field with
    | some src =>
      simp only [Option.mem_def, Option.some.injEq, forall_eq']
      refine .lift_bind fun inner hinner => ?_
      rw [hinner]
      exact checkWritten_runs w known step src inner
    | none => exact Runs.pure.congr (by simp)
  | text s styled => exact checkWritten_runs w known step (.text s styled) span
  | seq form items => exact checkWritten_runs w known step (.seq form items) span
  | _ => exact .pure

end

/-! ## Steps and outputs -/

theorem listing_eq (h : (Listing.of n (.str "id")).2 = .ok l) : listing n = l := by
  simp [listing, h, Except.toOption]

theorem source_listing (n : Node) : (listing n).source = n := by
  unfold listing Listing.of
  cases n with
  | seq form items => cases h :
    (Listing.ofItems (.seq form items) (.str "id") true 0 items [] []).2 <;> simp [h, Except.map, Except.toOption]
  | _ => rfl

section

variable (w : Workflow) (known : Steps)

theorem checkStepPorts_runs (s : Attached) : ∀ es : List ListingEntry,
    Runs w (checkStepPorts w known s.id s.interface s.ports es) (∀ e ∈ es, s.EntryPlaced e)
      (es.flatMap (s.errors w known)) ((es.flatMap s.sources).map (·.node))
  | [] => Runs.pure.congr (by simp)
  | e :: rest => by
    rw [flatMap_cons, flatMap_cons, map_append, forall_mem_cons]
    unfold checkStepPorts
    dsimp only
    have hrest := checkStepPorts_runs s rest
    by_cases hport : s.interface.inputs.contains e.key = true
    · simp only [if_pos hport, Attached.errors, Attached.sources, Attached.EntryPlaced, and_assoc]
      refine .lift_bind fun span hspan => ?_
      rw [hspan]
      exact .bind (checkPort_runs w known (some s.id) "source" e.value span) hrest
    · simp only [if_neg hport, Attached.errors, Attached.sources, Attached.EntryPlaced]
      refine .lift_bind fun span hspan => ?_
      rw [hspan]
      exact .report_bind _ hrest

theorem checkSteps_runs : ∀ es : List ListingEntry,
    Runs w (checkSteps w known es) (∀ s ∈ es.filterMap (attached? known), s.Placed)
      ((es.filterMap (attached? known)).flatMap fun s => s.ports.entries.flatMap (s.errors w known))
      (((es.filterMap (attached? known)).flatMap fun s => s.ports.entries.flatMap s.sources).map (·.node))
  | [] => Runs.pure.congr (by simp)
  | e :: rest => by
    have hrest := checkSteps_runs rest
    unfold checkSteps
    split
    · rename_i i form fields hi hvalue
      have hattached : attached? known e =
          some ⟨e.key, i, listing ((Node.Entries.field? fields "in").getD .null)⟩ := by
        simp only [attached?, hi, hvalue]
      rw [filterMap_cons_some hattached, flatMap_cons, flatMap_cons, map_append,
        forall_mem_cons, Attached.Placed, source_listing, and_assoc]
      refine .lift_bind fun ports hports => ?_
      rw [← listing_eq hports]
      exact .bind (checkStepPorts_runs w known ⟨e.key, i, _⟩ _) hrest
    · rename_i hother
      have hskipped : attached? known e = none := by
        unfold attached?
        split
        · rename_i i form fields hi hvalue
          exact (hother i form fields hi hvalue).elim
        · rfl
      rw [filterMap_cons_none hskipped]
      exact hrest

theorem checkOutputs_runs (outputs) : ∀ es : List ListingEntry,
    Runs w (checkOutputs w known outputs es)
      (∀ e ∈ es, (outputs.valueSpan e).isOk = true ∧ PortPlaced "outputSource" e.value)
      ((es.flatMap fun e => sourcesOf "outputSource" e.value (outputs.valueSpan e).toOption).flatMap
        (sourceErrors w known none))
      ((es.flatMap fun e => sourcesOf "outputSource" e.value (outputs.valueSpan e).toOption).map (·.node))
  | [] => Runs.pure.congr (by simp)
  | e :: rest => by
    rw [flatMap_cons, flatMap_append, map_append, forall_mem_cons, and_assoc]
    refine .lift_bind fun span hspan => ?_
    rw [hspan]
    exact .bind (checkPort_runs w known none "outputSource" e.value span)
      (checkOutputs_runs outputs rest)

/-! ## Unused inputs -/

theorem reportUnused_runs (inputs unused) : ∀ es : List ListingEntry,
    Runs w (reportUnused inputs unused es) (∀ e ∈ es.filter (isUnused unused), (inputs.idSpan e).isOk = true)
      ((es.filter (isUnused unused)).map fun e => .warning (inputs.idSpan e).toOption "Unused input") []
  | [] => Runs.pure.congr (by simp)
  | e :: rest => by
    have hrest := reportUnused_runs inputs unused rest
    unfold reportUnused
    dsimp only
    split
    · rename_i hunused
      rw [filter_cons_of_pos hunused, map_cons, forall_mem_cons]
      refine .lift_bind fun span hspan => ?_
      rw [hspan]
      exact .report_bind _ hrest
    · rename_i hunused
      rw [filter_cons_of_neg hunused]
      exact hrest

end
theorem contains_without (names : NameSet) (sources : List Node) (k : Node) :
    (without names sources).contains k = true ↔
      names.contains k = true ∧ (sources.any fun src => k.same src) = false := by
  unfold without
  induction sources generalizing names with
  | nil => simp
  | cons src rest ih =>
    rw [foldl_cons, ih, NameSet.contains_erase, any_cons, Bool.or_eq_false_iff, and_assoc]

variable {inputs outputs steps : Node}

theorem inputNames_of (hw : Workflow.of inputs outputs steps = .ok w) : w.inputs = inputs ∧
      ∃ es, (Listing.asMap inputs (.str "id")).2 = .ok es ∧ w.inputNames = .ofList (es.map (·.key)) := by
  unfold Workflow.of Interface.ports at hw
  obtain ⟨_, hin, hw⟩ := bind_eq_ok hw
  obtain ⟨es, hes, rfl⟩ := map_eq_ok hin
  obtain ⟨_, _, hw⟩ := bind_eq_ok hw
  cases hw
  exact ⟨rfl, es, hes, rfl⟩

/-- An input is left over exactly if no source that was taken out names it. -/
theorem isUnused_without (hw : Workflow.of inputs outputs steps = .ok w)
    (hl : (Listing.of w.inputs (.str "id")).2 = .ok l) (sources : List Node) {e}
    (he : e ∈ l.entries) : isUnused (without w.inputNames sources) e =
      !sources.any fun src => e.key.same src := by
  obtain ⟨hinputs, es, hes, hnames⟩ := inputNames_of hw
  rw [hinputs] at hl
  have hkey : e.key ∈ es.map (·.key) := by
    rw [← Listing.keys_of_asMap hes hl]
    exact mem_map_of_mem he
  rw [Bool.eq_iff_iff, isUnused, Bool.or_eq_true, contains_without, Bool.not_eq_true',
    Bool.not_eq_true', hnames, NameSet.contains_ofList]
  constructor
  · rintro (⟨_, hsources⟩ | hself)
    · exact hsources
    · -- what is not the same as itself is the same as nothing
      rw [any_eq_false]
      intro src _ hsrc
      rw [Node.same_trans e.key src e.key hsrc (Node.same_symm _ _ hsrc)] at hself
      cases hself
  · intro hsources
    cases hself : e.key.same e.key with
    | true => exact .inl ⟨⟨e.key, hkey, hself⟩, hsources⟩
    | false => exact .inr rfl

theorem leftOver_eq (hw : Workflow.of inputs outputs steps = .ok w)
    (hlisted : (Listing.of w.inputs (.str "id")).2.isOk = true) (known : Steps) :
    leftOver w known = unusedInputs w known := by
  obtain ⟨l, hl⟩ := exists_of_isOk hlisted
  unfold leftOver unusedInputs
  rw [listing_eq hl]
  exact filter_congr fun e he => isUnused_without hw hl _ (Listing.mem_sorted he)

/-! ## All connections -/

/-- The errors of all sources, and of ports that are in no interface. -/
def sourceProblems (w : Workflow) (known : Steps) : List Diagnostic :=
  (attachedSteps w known).flatMap (fun s => s.ports.entries.flatMap (s.errors w known)) ++
    (outputSources w).flatMap (sourceErrors w known none)

theorem ends_listing {y : Listing → Checking Unit} : Ends (liftM (Listing.of n (.str "id")).2 >>= y) t () t' ↔
      (Listing.of n (.str "id")).2.isOk = true ∧ Ends (y (listing n)) t () t' := by
  unfold listing
  cases (Listing.of n (.str "id")).2 with
  | error f =>
    refine ⟨fun h => ?_, fun h => ?_⟩
    · cases h
    · cases h.1
  | ok l => exact (and_iff_right rfl).symm

theorem checkAll_ends_iff : Ends (checkAll w known) ⟨w.inputNames, []⟩ () t' ↔
      Located w known ∧ (∀ e ∈ leftOver w known, ((listing w.inputs).idSpan e).isOk = true) ∧
      (∀ src ∈ visited w known, Legible w src) ∧
      t' = ⟨without w.inputNames (visited w known), sourceProblems w known ++ (leftOver w known).map fun e =>
          .warning ((listing w.inputs).idSpan e).toOption "Unused input"⟩ := by
  have hget : ∀ {t : Tally} {y : Tally → Checking Unit}, Ends (get >>= y) t () t' ↔ Ends (y t) t () t' :=
    Iff.rfl
  have hvisited : visited w known = (stepSources w known).map (·.node) ++ (outputSources w).map (·.node) :=
    map_append
  unfold checkAll
  rw [ends_listing, (checkSteps_runs w known _).bind_iff, ends_listing,
    (checkOutputs_runs w known _ _).bind_iff, ends_listing, hget, reportUnused_runs w _ _ _ _ _, leftOver,
    hvisited, without_append, forall_mem_append]
  constructor
  · rintro ⟨hsteps, hports, hlegible, houtputs, hsources, hlegible', hinputs, hunused, _, ht⟩
    exact ⟨⟨hsteps, hports, houtputs, hsources, hinputs⟩, hunused, ⟨hlegible, hlegible'⟩, ht⟩
  · rintro ⟨⟨hsteps, hports, houtputs, hsources, hinputs⟩, hunused, ⟨hlegible, hlegible'⟩, ht⟩
    exact ⟨hsteps, hports, hlegible, houtputs, hsources, hlegible', hinputs, hunused, by simp, ht⟩

/-- When the connections of a workflow can be checked to the end, and which problems there are
then. -/
theorem connectionProblems_iff {problems} :
    w.connectionProblems known = (problems, .ok ()) ↔
      Located w known ∧ (∀ e ∈ leftOver w known, ((listing w.inputs).idSpan e).isOk = true) ∧
      (∀ src ∈ visited w known, Legible w src) ∧
      problems = sourceProblems w known ++ (leftOver w known).map fun e =>
        .warning ((listing w.inputs).idSpan e).toOption "Unused input" := by
  have hends : w.connectionProblems known = (problems, .ok ()) ↔
      ∃ t, Ends (checkAll w known) ⟨w.inputNames, []⟩ () t ∧ problems = t.problems := by
    unfold connectionProblems Ends
    cases (checkAll w known).run.run ⟨w.inputNames, []⟩ with
    | mk r t =>
      constructor
      · intro h
        cases h
        exact ⟨t, rfl, rfl⟩
      · rintro ⟨t', h, rfl⟩
        cases h
        rfl
  rw [hends]
  simp only [checkAll_ends_iff, and_assoc, exists_and_left, exists_eq_left]

/-! ## Where the errors are -/

theorem known_toOption {e} (h : Gives Span.Ordered e) (hok : e.isOk = true) :
    Span.Known e.toOption := by
  obtain ⟨span, rfl⟩ := exists_of_isOk hok
  exact (h span rfl).known

theorem writtenSources_known {span} (h : WrittenPlaced src) (hspan : Span.Known span) :
    ∀ s ∈ writtenSources src span, Span.Known s.span := by
  cases src with
  | seq form items =>
    intro s hs
    obtain ⟨i, hi, rfl⟩ := mem_map.mp (mem_filter.mp hs).1
    exact known_toOption (Node.itemSpan_ordered _ _) (h i hi)
  | text t styled => exact forall_mem_singleton.mpr hspan
  | _ => exact forall_mem_nil _

theorem sourcesOf_known {field port span} (h : PortPlaced field port) (hspan : Span.Known span) :
    ∀ s ∈ sourcesOf field port span, Span.Known s.span := by
  have hwritten : WrittenPlaced port → ∀ s ∈ writtenSources port span, Span.Known s.span :=
    fun h => writtenSources_known h hspan
  cases port with
  | map form es =>
    simp only [PortPlaced, sourcesOf] at h ⊢
    cases hsrc : Node.Entries.field? es field with
    | none => exact forall_mem_nil _
    | some src =>
      obtain ⟨hvalue, hsrc⟩ := h src hsrc
      exact writtenSources_known hsrc (known_toOption (Node.valueSpan_ordered _ _) hvalue)
  | _ => exact hwritten h

theorem unresolved_known {sources} (h : ∀ s ∈ sources, Span.Known s.span) :
    ∀ span ∈ unresolved w known step sources, Span.Known span := by
  intro span hspan
  obtain ⟨s, hs, rfl⟩ := mem_map.mp hspan
  exact h s (mem_filter.mp hs).1

theorem keysOrdered_listing (n : Node) : Listing.KeysOrdered (listing n).entries := by
  unfold listing
  cases h : (Listing.of n (.str "id")).2 with
  | error f => exact Listing.keysOrdered_nil
  | ok l => exact (Listing.of_placed n (.str "id")).2 l h

section

variable {w : Workflow} {known : Steps}

theorem Attached.faults_known {s} (hs : s ∈ attachedSteps w known) {e} (he : e ∈ s.ports.entries)
    (hplaced : s.EntryPlaced e) : ∀ span ∈ s.faults w known e, Span.Known span := by
  unfold EntryPlaced at hplaced
  unfold faults sources
  split at hplaced
  · rename_i hport
    rw [if_pos hport, if_pos hport]
    refine unresolved_known (sourcesOf_known hplaced.2 ?_)
    exact known_toOption (s.ports.valueSpan_ordered e) hplaced.1
  · rename_i hport
    rw [if_neg hport]
    obtain ⟨step, _, hattached⟩ := mem_filterMap.mp hs
    unfold attached? at hattached
    split at hattached
    · cases hattached
      refine forall_mem_singleton.mpr (known_toOption (Listing.idSpan_ordered ?_) hplaced)
      exact keysOrdered_listing _ e he
    · cases hattached

theorem faults_known (h : Located w known) :
    ∀ span ∈ stepFaults w known ++ outputFaults w known, Span.Known span := by
  refine forall_mem_append.mpr ⟨?_, unresolved_known ?_⟩
  · intro span hspan
    obtain ⟨s, hs, hspan⟩ := mem_flatMap.mp hspan
    obtain ⟨e, he, hspan⟩ := mem_flatMap.mp hspan
    exact Attached.faults_known hs he ((h.ports s hs).2 e he) span hspan
  · intro s hs
    obtain ⟨e, he, hs⟩ := mem_flatMap.mp hs
    obtain ⟨hvalue, hport⟩ := h.sources e he
    exact sourcesOf_known hport (known_toOption (Listing.valueSpan_ordered _ e) hvalue) s hs

theorem sourceErrors_at {sources} (h : ∀ s ∈ sources, Legible w s.node) :
    (sources.flatMap (sourceErrors w known step)).map (fun d => (d.severity, d.span)) =
      (unresolved w known step sources).map fun span => (some .error, span) := by
  unfold unresolved
  induction sources with
  | nil => rfl
  | cons s rest ih =>
    obtain ⟨⟨hkey, hlegible⟩, hrest⟩ := forall_mem_cons.mp h
    rw [flatMap_cons, map_append, ih hrest, filter_cons]
    unfold sourceErrors
    rw [hkey]
    cases hinput : w.inputNames.contains s.node with
    | true => simp [Resolvable, hinput]
    | false =>
      rw [hinput, or_iff_right Bool.false_ne_true, ← isOk_sourceFault? w known step] at hlegible
      obtain ⟨fault, hfault⟩ := exists_of_isOk hlegible
      have hiff := sourceFault?_iff hinput hfault
      rw [hfault]
      cases fault with
      | none => simp [hiff.mp rfl]
      | some message =>
        have hnot : ¬Resolvable w known step s.node := fun hres => by cases hiff.mpr hres
        simp [hnot, Diagnostic.error]

theorem sourceProblems_at (h : ∀ src ∈ visited w known, Legible w src) :
    (sourceProblems w known).map (fun d => (d.severity, d.span)) =
      (stepFaults w known ++ outputFaults w known).map fun span => (some .error, span) := by
  have hsources : ∀ s ∈ stepSources w known ++ outputSources w, Legible w s.node :=
    fun s hs => h _ (mem_map_of_mem hs)
  obtain ⟨hsteps, houtputs⟩ := forall_mem_append.mp hsources
  unfold sourceProblems stepFaults
  rw [map_append, map_append, outputFaults, ← sourceErrors_at houtputs]
  refine congrArg (· ++ _) ?_
  rw [map_flatMap, map_flatMap]
  refine flatMap_congr fun s hs => ?_
  rw [map_flatMap, map_flatMap]
  refine flatMap_congr fun e he => ?_
  unfold Attached.errors Attached.faults
  split
  · refine sourceErrors_at fun src hsrc => hsteps src ?_
    exact mem_flatMap.mpr ⟨s, hs, mem_flatMap.mpr ⟨e, he, hsrc⟩⟩
  · rfl

theorem sourceProblems_placed (h : Located w known) (hlegible : ∀ src ∈ visited w known, Legible w src) :
    Diagnostic.AllPlaced (sourceProblems w known) := by
  intro d hd
  have hat : (d.severity, d.span) ∈ (sourceProblems w known).map fun d => (d.severity, d.span) :=
    mem_map_of_mem hd
  rw [sourceProblems_at hlegible] at hat
  obtain ⟨span, hspan, heq⟩ := mem_map.mp hat
  rw [Diagnostic.Placed, ← (Prod.mk.inj heq).2]
  exact faults_known h span hspan

end

/-- Problems that are errors at given spans, one for each. -/
def ErrorsAt (faults : List (Option Span)) (errors : List Diagnostic) : Prop :=
  errors.map (fun d => (d.severity, d.span)) = faults.map (fun span => (some .error, span)) ∧
    ∀ d ∈ errors, d.span.isSome

theorem errorsAt_of_located (h : Located w known) (hlegible : ∀ src ∈ visited w known, Legible w src) :
    ErrorsAt (stepFaults w known ++ outputFaults w known) (sourceProblems w known) := by
  refine ⟨sourceProblems_at hlegible, fun d hd => ?_⟩
  obtain ⟨span, hspan, _⟩ := sourceProblems_placed h hlegible d hd
  rw [hspan]
  rfl

/-- If the connections of a workflow are checked to the end, the problems are: one error for
each port of a step that the step does not have and for each source of a step that cannot
be resolved, in order; then one error for each source of an output that cannot be resolved;
then one warning for each input that no source names. Each is where its port, its source or
its input is written. -/
theorem connectionProblems_eq {inputs outputs steps : Node} {w : Workflow} {known : Steps}
    {problems : List Diagnostic} (hw : Workflow.of inputs outputs steps = .ok w)
    (h : w.connectionProblems known = (problems, .ok ())) :
    ∃ errors, ErrorsAt (stepFaults w known ++ outputFaults w known) errors ∧
      problems = errors ++ (unusedInputs w known).map (fun e =>
        .warning ((listing w.inputs).idSpan e).toOption "Unused input") ∧
      ∀ e ∈ unusedInputs w known, ((listing w.inputs).idSpan e).toOption.isSome := by
  obtain ⟨hlocated, hunused, hlegible, hproblems⟩ := connectionProblems_iff.mp h
  rw [leftOver_eq hw hlocated.inputs] at hunused hproblems
  refine ⟨_, errorsAt_of_located hlocated hlegible, hproblems, fun e he => ?_⟩
  obtain ⟨span, hspan⟩ := exists_of_isOk (hunused e he)
  rw [hspan]
  rfl

/-- The connections of a workflow are checked to the end exactly if everything that may hold a
source can be listed and has its place, each input that nothing uses has its place, and each
source is an input or something else that at most one slash cuts. A text with two slashes stops
the check, and so does a list or a map among the items of a list of sources. -/
theorem checked_iff_legible {inputs outputs steps : Node} {w : Workflow}
    (hw : Workflow.of inputs outputs steps = .ok w) (known : Steps) :
    (w.connectionProblems known).2.isOk = true ↔
      Located w known ∧ (∀ e ∈ unusedInputs w known, ((listing w.inputs).idSpan e).isOk = true) ∧
      ∀ src ∈ visited w known, Legible w src := by
  constructor
  · intro h
    obtain ⟨_, hok⟩ := exists_of_isOk h
    obtain ⟨hlocated, hunused, hlegible, _⟩ := connectionProblems_iff.mp (Prod.ext rfl hok)
    rw [leftOver_eq hw hlocated.inputs] at hunused
    exact ⟨hlocated, hunused, hlegible⟩
  · rintro ⟨hlocated, hunused, hlegible⟩
    rw [← leftOver_eq hw hlocated.inputs] at hunused
    rw [connectionProblems_iff.mpr ⟨hlocated, hunused, hlegible, rfl⟩]
    rfl

/-! ## A workflow with a problem of every kind -/

def sampleInputs : Node := .placedMap [("reads", .null), ("spare", .null)]

/-- An output that no step has, and one whose source is followed by nothing. -/
def sampleOutputs : Node := .placedList [
  .placedMap [("id", .text "report" false), ("outputSource", .text "align/log" false)],
  .placedMap [("id", .text "bam" false),
    ("outputSource", .placedList [.text "sort/bam" false, .null])]]

/-- A step with a port that it does not have, and one that takes its own output. -/
def sampleSteps : Node := .placedMap [
  ("align", .placedMap [("in", .placedMap [("reads", .text "reads" false),
    ("index", .text "genome" false)])]),
  ("sort", .placedMap [("in", .placedList [.placedMap [("id", .text "bam" false),
    ("source", .placedList [.text "align/bam" false, .text "sort/bam" false])]])])]

def sampleKnown : Steps := [
  (.text "align" false, { inputs := ⟨[.text "reads" false]⟩, outputs := ⟨[.text "bam" false]⟩ }),
  (.text "sort" false, { inputs := ⟨[.text "bam" false]⟩, outputs := ⟨[.text "bam" false]⟩ })]

theorem connectionProblems_eq_sample : ∃ w problems errors,
    Workflow.of sampleInputs sampleOutputs sampleSteps = .ok w ∧
    w.connectionProblems sampleKnown = (problems, .ok ()) ∧
    (stepFaults w sampleKnown).length = 2 ∧ (outputFaults w sampleKnown).length = 1 ∧
    (unusedInputs w sampleKnown).map (·.key) = [.text "spare" false] ∧
    ErrorsAt (stepFaults w sampleKnown ++ outputFaults w sampleKnown) errors ∧
    problems = errors ++ (unusedInputs w sampleKnown).map (fun e =>
      .warning ((listing w.inputs).idSpan e).toOption "Unused input") := by
  have hrun : ((Workflow.of sampleInputs sampleOutputs sampleSteps).toOption.any fun w =>
      (w.connectionProblems sampleKnown).2.isOk && (stepFaults w sampleKnown).length == 2 &&
      (outputFaults w sampleKnown).length == 1 && (unusedInputs w sampleKnown).length == 1 &&
      (unusedInputs w sampleKnown).all (·.key.isStr "spare")) = true := by decide +kernel
  simp only [Option.any_eq_true, Bool.and_eq_true, beq_iff_eq, all_eq_true, Node.isStr_iff] at hrun
  obtain ⟨w, hsome, ⟨⟨⟨hok, hsteps⟩, houtputs⟩, hone⟩, hspare⟩ := hrun
  have hw := eq_ok_of_toOption hsome
  have hunused : (unusedInputs w sampleKnown).map (·.key) = [.text "spare" false] :=
    eq_replicate_iff.mpr ⟨(length_map _).trans hone, forall_mem_map.mpr hspare⟩
  obtain ⟨problems, h⟩ : ∃ problems, w.connectionProblems sampleKnown = (problems, .ok ()) := by
    obtain ⟨_, hend⟩ := exists_of_isOk hok
    exact ⟨_, Prod.ext rfl hend⟩
  obtain ⟨errors, herrors, hproblems, _⟩ := connectionProblems_eq hw h
  exact ⟨w, problems, errors, hw, h, hsteps, houtputs, hunused, herrors, hproblems⟩

/-- An output that takes its value from a text with two slashes. -/
def twiceCut : Node := .placedMap [("bam", .str "sort/bam/sorted")]

/-- The sample has sources that lead nowhere and is checked to the end; a text with two slashes
stops the check. -/
theorem checked_iff_legible_sample :
    (∃ w, Workflow.of sampleInputs sampleOutputs sampleSteps = .ok w ∧
      (w.connectionProblems sampleKnown).2.isOk = true ∧
      ∀ src ∈ [.str "reads", .str "align/bam", .str "sort/bam", .str "align/log"], Legible w src) ∧
    ∃ w, Workflow.of sampleInputs twiceCut .null = .ok w ∧ (w.connectionProblems []).2.isOk = false := by
  constructor
  · have hrun : ((Workflow.of sampleInputs sampleOutputs sampleSteps).toOption.any fun w =>
        (w.connectionProblems sampleKnown).2.isOk && ["reads", "align/bam", "sort/bam", "align/log"].all fun s =>
          (visited w sampleKnown).any (·.isStr s)) = true := by decide +kernel
    simp only [Option.any_eq_true, Bool.and_eq_true, all_eq_true] at hrun
    obtain ⟨w, hsome, hok, hvisited⟩ := hrun
    have hw := eq_ok_of_toOption hsome
    obtain ⟨_, _, hlegible⟩ := (checked_iff_legible hw sampleKnown).mp hok
    refine ⟨w, hw, hok, ?_⟩
    rw [show [Node.str "reads", .str "align/bam", .str "sort/bam", .str "align/log"] =
      ["reads", "align/bam", "sort/bam", "align/log"].map .str from rfl, forall_mem_map]
    exact fun s hs => hlegible _ (Node.str_mem_of_any (hvisited s hs))
  · have hrun : ((Workflow.of sampleInputs twiceCut .null).toOption.any fun w =>
        (visited w []).any (·.isStr "sort/bam/sorted") && !w.inputNames.contains (.str "sort/bam/sorted")) = true := by
      decide +kernel
    simp only [Option.any_eq_true, Bool.and_eq_true, Bool.not_eq_true'] at hrun
    obtain ⟨w, hsome, hvisited, hinput⟩ := hrun
    have hw := eq_ok_of_toOption hsome
    refine ⟨w, hw, ?_⟩
    rw [← Bool.not_eq_true, checked_iff_legible hw]
    rintro ⟨_, _, hlegible⟩
    have hcut := hlegible _ (Node.str_mem_of_any hvisited)
    rw [Legible, hinput] at hcut
    obtain ⟨_, hcontains | hparts⟩ := hcut
    · cases hcontains
    · exact absurd (hparts _ rfl) (by decide)

end CwlService.Workflow

/-! # Where the problems of a workflow are

The problems of ports and connections are found at the spans of what is listed and of what is
written as a source, so all of them have a place. -/
namespace CwlService

open Diagnostic (AllPlaced)

namespace Interface

theorem ports_placed (n : Node) : AllPlaced (ports n).1 := Listing.asMap_placed n (.str "id")

theorem ofProcess_placed (run : Node) : AllPlaced (ofProcess run).1 := by
  cases run with
  | map form es =>
    have hinputs := ports_placed ((Node.Entries.field? es "inputs").getD .null)
    have houtputs := ports_placed ((Node.Entries.field? es "outputs").getD .null)
    unfold ofProcess
    dsimp only
    split
    · exact hinputs
    · exact hinputs.append houtputs
  | _ => exact .nil

end Interface

namespace Workflow

/-- The problems of connections have a place, if all connections can be checked. -/
theorem connectionProblems_placed {w : Workflow} {known}
    (h : (w.connectionProblems known).2.isOk = true) : AllPlaced (w.connectionProblems known).1 := by
  obtain ⟨_, hu⟩ := exists_of_isOk h
  have hends : w.connectionProblems known = ((w.connectionProblems known).1, .ok ()) := Prod.ext rfl hu
  obtain ⟨hlocated, hunused, hlegible, hproblems⟩ := connectionProblems_iff.mp hends
  rw [hproblems]
  refine (sourceProblems_placed hlocated hlegible).append fun d hd => ?_
  obtain ⟨e, he, rfl⟩ := List.mem_map.mp hd
  refine known_toOption (Listing.idSpan_ordered ?_) (hunused e he)
  exact keysOrdered_listing _ e (Listing.mem_sorted (List.mem_filter.mp he).1)

end Workflow
end CwlService
