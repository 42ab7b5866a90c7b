import CwlService.Proofs.Analysis.Placed
import CwlService.Proofs.Document.Samples
import CwlService.Protocol.Objects

/-! # Where the client is shown problems

Every problem that is found in a document is sent with a range that is in order. There is one
exception: a process that as a whole is taken for something without parts. If there is something
wrong with it, that is the only problem, and it is sent without a range. -/
namespace CwlService.Document

open Analysis (WrongLeaf rootMeaning)
open Diagnostic (AllPlaced)

variable {catalog : Language.Catalog} {site : Site}

/-! ## Problems of reading -/

/-- Data that are a map have no problems of reading; others have a place for theirs. -/
def ReadInPlace (read : Yaml.Reader.Loaded × List Diagnostic) : Prop :=
  read.2 = [] ∨ read.1.node.isMap = false ∧ AllPlaced read.2

theorem read_inPlace (retries : Nat) (text : String) (r : Yaml.Reader) :
    Gives ReadInPlace ((read retries text).run.run r).1 := by
  change Gives ReadInPlace (outcome _)
  unfold outcome
  split
  · exact .pure (.inl rfl)
  · exact .pure (.inr ⟨rfl, List.forall_mem_singleton.mpr (Span.ordered_at _).known⟩)
  · exact .throw _
  · exact .throw _

variable (d : Document) (text : Node)

theorem readNode_inPlace (retries : Nat) (text : Node) (r : Yaml.Reader) :
    Gives ReadInPlace ((readNode retries text).run.run r).1 := by
  cases text with
  | text s styled => exact read_inPlace retries s r
  | null =>
    obtain ⟨⟨marked, readiness⟩, loader⟩ := r
    cases readiness with
    | ready => exact .throw _
    | _ => exact .throw _
  | _ => exact .throw _

/-! ## Problems of a process -/

/-- The text reads as a process that as a whole is taken for something without parts, and there is
something wrong with it. -/
def WrongRoot (catalog : Language.Catalog) (site : Site) : Prop :=
  ∃ loaded problems form entries language logs m,
    ((readText text).run site).1 = .ok (loaded, problems) ∧ loaded.node = .map form entries ∧
    languageFor catalog ((loaded.full.field? "cwlVersion").getD .null) = .ok (language, logs) ∧
    rootMeaning { workspace := site.workspace, doc := d.uri, language } loaded = .ok m ∧
    WrongLeaf { workspace := site.workspace, doc := d.uri, language } loaded.node none
      (beginning problems entries, site.readers.links) m

theorem explore_placed {loaded form entries} (hnode : loaded.node = .map form entries)
    {language logs}
    (hlanguage : languageFor catalog ((loaded.full.field? "cwlVersion").getD .null) = .ok (language, logs))
    (h : ((d.explore loaded [] catalog).run site).1.outcome.isOk = true) :
      ∃ m, rootMeaning { workspace := site.workspace, doc := d.uri, language } loaded = .ok m ∧
      (WrongLeaf { workspace := site.workspace, doc := d.uri, language } loaded.node none
          (beginning [] entries, site.readers.links) m →
        ∃ p, ((d.explore loaded [] catalog).run site).1.document.problems = [p] ∧ p.span = none) ∧
      (¬WrongLeaf { workspace := site.workspace, doc := d.uri, language } loaded.node none
          (beginning [] entries, site.readers.links) m →
        AllPlaced ((d.explore loaded [] catalog).run site).1.document.problems) := by
  have hrun := @explore_run catalog site d loaded []
  rw [hnode, hlanguage] at hrun
  rw [hrun] at h ⊢
  obtain ⟨hends, hproblems, _⟩ := of_walked h
  dsimp only at hends hproblems ⊢
  rw [hproblems]
  have hgone : Analysis.Ends (Analysis.walk { workspace := site.workspace, doc := d.uri, language } loaded)
      (beginning [] entries, site.readers.links) () (_, _) := Prod.ext (Prod.ext hends rfl) rfl
  exact Analysis.walk_placed (by rw [hnode]; rfl) rfl hgone

/-- The problems of a document have a place, or there is one for the whole of it. -/
theorem update_placed
    (h : ((d.update text catalog).run site).1.outcome.isOk = true) : (WrongRoot d text catalog site →
      ∃ p, ((d.update text catalog).run site).1.document.problems = [p] ∧ p.span = none) ∧
    (¬WrongRoot d text catalog site → AllPlaced ((d.update text catalog).run site).1.document.problems) := by
  have hinplace : Gives ReadInPlace ((readText text).run site).1 := readNode_inPlace _ _ _
  rw [update_run] at h ⊢
  unfold WrongRoot
  rw [readText_run] at h hinplace ⊢
  dsimp only at h hinplace ⊢
  cases hread : ((readNode repairs text).run.run site.readers.documents).1 with
  | error f => rw [hread] at h; cases h
  | ok read =>
    obtain ⟨loaded, problems⟩ := read
    rw [hread] at h hinplace
    dsimp only at h ⊢
    cases hnode : loaded.node with
    | map form entries =>
      obtain rfl : problems = [] := (hinplace _ rfl).resolve_right fun hno => by rw [hnode] at hno; cases hno.1
      cases hlanguage : languageFor catalog ((loaded.full.field? "cwlVersion").getD .null) with
      | error f =>
        rw [explore_run, hnode, hlanguage] at h
        cases h
      | ok found =>
        obtain ⟨language, logs⟩ := found
        obtain ⟨m, hm, hwrong, hright⟩ := explore_placed _ hnode hlanguage h
        refine ⟨?_, fun hroot => hright fun hleaf => ?_⟩
        · rintro ⟨_, _, _, _, _, _, _, hloaded, hnode', hlanguage', hm', hleaf⟩
          cases hloaded
          cases hnode.symm.trans hnode'
          cases hlanguage.symm.trans hlanguage'
          cases hm.symm.trans hm'
          exact hwrong hleaf
        · exact hroot ⟨loaded, [], form, entries, language, logs, m, rfl, hnode, hlanguage, hm, hleaf⟩
    | _ =>
      rw [explore_run, hnode]
      refine ⟨?_, fun _ => ?_⟩
      · rintro ⟨_, _, _, _, _, _, _, hloaded, hnode', _⟩
        cases hloaded
        cases hnode.symm.trans hnode'
      · rcases hinplace _ rfl with hnone | ⟨_, hplaced⟩
        · dsimp only at hnone ⊢
          rw [hnone]
          exact .nil
        · exact hplaced

/-! ## Ranges in messages -/

theorem field?_object (fields name) : (Protocol.object fields).field? name =
      (fields.find? fun f => !f.2.isNull && f.1 == name).map (·.2) := by
  simp only [Protocol.object, Node.record, Node.dict, Node.field?, Node.Entries.field?, List.find?_map,
    List.find?_filter, Option.map_map, Bool.decide_and, Bool.decide_eq_true]
  rfl

theorem range_diagnostic (listed : List String → List String) (p : Diagnostic) :
    (Protocol.diagnostic listed p).field? "range" = p.span.map Protocol.span := by
  unfold Protocol.diagnostic
  rw [field?_object]
  cases p.span with
  | some span => rfl
  | none => simp [Protocol.optSpan, Node.isNull]

/-- Once a text is worked on to the end, every problem is sent with a range in order, unless the
process as a whole is wrong. Then there is one problem, and it is sent without a range. -/
theorem ranges_of_problems (catalog : Language.Catalog) (site : Site) (listed : List String → List String)
    (h : ((d.update text catalog).run site).1.outcome.isOk = true) :
    ((∀ p ∈ ((d.update text catalog).run site).1.document.problems, ∃ span, p.span = some span ∧
        span.start.le span.stop = true ∧
        (Protocol.diagnostic listed p).field? "range" = some (Protocol.span span)) ↔
      ¬WrongRoot d text catalog site) ∧
    (WrongRoot d text catalog site → ∃ p, ((d.update text catalog).run site).1.document.problems = [p] ∧
      p.span = none ∧ (Protocol.diagnostic listed p).field? "range" = none) := by
  obtain ⟨hwrong, hright⟩ := update_placed d text h
  refine ⟨⟨fun hall hroot => ?_, fun hroot p hp => ?_⟩, fun hroot => ?_⟩
  · obtain ⟨p, hproblems, hnone⟩ := hwrong hroot
    obtain ⟨span, hspan, _⟩ := hall p (by rw [hproblems]; exact List.mem_singleton_self p)
    rw [hnone] at hspan
    cases hspan
  · obtain ⟨span, hspan, hordered⟩ := hright hroot p hp
    refine ⟨span, hspan, hordered, ?_⟩
    rw [range_diagnostic, hspan]
    rfl
  · obtain ⟨p, hproblems, hnone⟩ := hwrong hroot
    refine ⟨p, hproblems, hnone, ?_⟩
    rw [range_diagnostic, hnone]
    rfl

/-- What is known of a text where there are no files. -/
def opened (text : String) : Updated := ((update { uri := .str "a.cwl" } (.str text) bareCatalog).run emptySite).1

/-- A process of an unknown class has a problem without a range; one with an unknown field is told
where the field is. -/
theorem ranges_of_problems_sample :
    (WrongRoot { uri := .str "a.cwl" } (.str "class: Foo") bareCatalog emptySite ∧
      ∃ p, (opened "class: Foo").document.problems = [p] ∧ p.span = none ∧
        (Protocol.diagnostic id p).field? "range" = none) ∧
    ¬WrongRoot { uri := .str "a.cwl" } (.str "color: red") bareCatalog emptySite ∧
      (opened "color: red").document.problems.map (·.span) = [some ⟨⟨0, 0⟩, ⟨0, 5⟩⟩] := by
  obtain ⟨hplaced, hlost⟩ := ranges_of_problems { uri := .str "a.cwl" } (.str "class: Foo") bareCatalog emptySite
    id (by decide +kernel)
  obtain ⟨_, hlost'⟩ := ranges_of_problems { uri := .str "a.cwl" } (.str "color: red") bareCatalog emptySite
    id (by decide +kernel)
  have hspans : (opened "class: Foo").document.problems.map (·.span) = [none] := by decide +kernel
  have hspans' : (opened "color: red").document.problems.map (·.span) = [some ⟨⟨0, 0⟩, ⟨0, 5⟩⟩] := by decide +kernel
  have hroot : WrongRoot { uri := .str "a.cwl" } (.str "class: Foo") bareCatalog emptySite := by
    by_contra hnot
    obtain ⟨p, hp, hnone⟩ := List.map_eq_singleton_iff.mp hspans
    have hmem : p ∈ (opened "class: Foo").document.problems := by rw [hp]; exact List.mem_singleton_self p
    obtain ⟨span, hspan, _⟩ := hplaced.mpr hnot p hmem
    rw [hnone] at hspan
    cases hspan
  refine ⟨⟨hroot, hlost hroot⟩, fun hroot' => ?_, hspans'⟩
  obtain ⟨p, hp, hnone, _⟩ := hlost' hroot'
  rw [show (opened "color: red").document.problems = [p] from hp, List.map_singleton, hnone] at hspans'
  cases hspans'

end CwlService.Document
