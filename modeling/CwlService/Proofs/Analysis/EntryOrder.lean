import CwlService.Proofs.Analysis.Reordered
import CwlService.Proofs.Analysis.Steps
import CwlService.Proofs.Document.Renewed
import CwlService.Proofs.Language.Placement

/-! # The order of entries

The way through a document leads over its maps in the order of their entries, and what it
finds early it uses later. The problems of a document do not depend on that order, but for
those of names of types that are looked for before all types are known. -/
namespace CwlService.Analysis

open Node (AllMaps TextKeys)

/-! ## The way through a document -/

/-- A type of data was looked for where not all types were known that the document imports. -/
def LookedForEarly (a : Analysis) (span : Option Span) : Prop :=
  ∃ names definition, (span, some (.dataType names definition)) ∈ a.hints ∧
    ∃ t, Node.Entries.hasField a.types t = true ∧ (names.any fun n => n.isName t) = false

theorem roots_orderly {l : Language} (h : l.orderly = true) :
    ∀ t ∈ Language.processTypes.map fun t => (l.get? t).getD .missing, t.orderly .plain = true := by
  intro t ht
  obtain ⟨name, hname, rfl⟩ := List.mem_map.mp ht
  cases hget : l.get? name with
  | none => rfl
  | some t =>
    refine l.orderly_of_get? h hget ?_
    rintro rfl
    exact absurd hname (by decide)

/-- The types of whole documents. -/
def rootTypes (l : Language) : List CwlType := Language.processTypes.map fun t => (l.get? t).getD .missing

theorem walk_finds {S : Scene} (hS : S.Sound) {n} (hn : AllMaps Tidy n) {s s'} (hs : Standing S s)
    (h : Ends (walk S.env ⟨n, []⟩) s () s') :
    ∃ m, S.env.meaning ⟨n, rootTypes S.env.language, none, none⟩ = .ok m ∧
      Found S {} (S.findTo (visitDepth n) m n none none none) s s' := by
  unfold walk at h
  obtain ⟨m, s₁, hmeaning, hvisit⟩ := h.bind
  obtain ⟨hm, rfl⟩ := hmeaning.lift
  rw [full_eq, ite_self] at hm
  have hrole := meaning_orderly hS (roots_orderly hS.orderly) (explicitType_of_tidy hn none) hm
  have hfinds := (visitTo_finds hS (visitDepth n) .plain m n {} none none none hrole hn rfl).discarded
  exact ⟨m, hm, (hfinds _ _ _ hvisit hs).1⟩

theorem Tidy.rearranged {es es'} (h : Node.Rearranged es es') (hes : Tidy es) : Tidy es' := by
  refine ⟨h.textKeys hes.textKeys, ?_, ?_⟩
  · intro c hc
    have hclass := h.field?_rel hes.textKeys "class"
    rw [hc] at hclass
    cases hfield : es.field? "class" with
    | none => rw [hfield] at hclass; cases hclass
    | some c' =>
      rw [hfield] at hclass
      cases hclass with
      | some hc' =>
        obtain ⟨hkey, hname⟩ := hes.className c' hfield
        rw [hc'.eq_of_isKey hkey]
        exact ⟨hkey, hname⟩
  · intro e he
    obtain ⟨f, hf, hkey⟩ := List.mem_map.mp (h.keys_perm.mem_iff.mpr (List.mem_map_of_mem he))
    rw [← hkey]
    exact hes.noStep f hf

theorem tidy_of_reordered {n n'} (h : Node.Reordered n n') (hn : AllMaps Tidy n) : AllMaps Tidy n' :=
  Node.allMaps_of_reordered Tidy.rearranged h hn

/-! ## Two orders -/

/-- The names of the types that a document imports. -/
def importedTypes (a : Analysis) : List String := a.types.filterMap fun e => e.1.text?

theorem mem_importedTypes {a} (h : ∀ e ∈ a.types, ∃ name, e.1 = Node.str name) (t : String) :
    t ∈ importedTypes a ↔ Node.Entries.hasField a.types t = true := by
  unfold importedTypes Node.Entries.hasField
  rw [List.mem_filterMap, List.any_eq_true]
  refine exists_congr fun e => and_congr_right fun he => ?_
  obtain ⟨name, hname⟩ := h e he
  rw [hname]
  simp [Node.text?, Node.isName]

theorem ends_of_walkThrough {env loaded start a site}
    (h : ((Document.walkThrough env loaded start).run site).1 = (.ok (), a)) :
    ∃ r, Ends (walk env loaded) (start, site.readers.links) () (a, r) := by
  rw [Document.walkThrough_run] at h
  exact ⟨(((walk env loaded).run.run start).run site.readers.links).2, Prod.ext h rfl⟩

theorem declared_reordered {form} {es es' : Node.Entries}
    (h : Node.Reordered (.map form es) (.map form es')) (hkeys : TextKeys es) (name) :
    Node.Reordered ((es.field? name).getD (.map .plain [])) ((es'.field? name).getD (.map .plain [])) := by
  obtain ⟨_, heq, hes⟩ := h.map_left
  cases heq
  have hfield := hes.field?_rel hkeys name
  generalize es.field? name = v, es'.field? name = v' at hfield
  cases hfield with
  | none => exact ⟨[], [], rfl, rfl, .refl _⟩
  | some hv => exact hv

theorem declared_textKeys {form} {es : Node.Entries} (h : AllMaps Tidy (.map form es))
    (name : String) :
    AllMaps TextKeys ((es.field? name).getD (.map .plain [])) := by
  cases hfield : es.field? name with
  | none => exact ⟨⟨by simp, by simp⟩, trivial⟩
  | some n => exact AllMaps.field? (n := .map form es) (h.imp fun _ hes => hes.textKeys) hfield

section

variable {S : Scene} {a : Analysis}

theorem informed_of_doubtful (hkeys : ∀ t, t ∈ S.types ↔ Node.Entries.hasField a.types t = true)
    (hdoubtful : ∀ span, LookedForEarly a span → S.doubtful span = true) : Informed S a := by
  refine ⟨?_, fun t ht => (hkeys t).mpr ht⟩
  intro span names definition hmem hspan t ht
  cases hnames : names.any fun n => n.isName t with
  | true => rfl
  | false =>
    rw [hdoubtful span ⟨names, definition, hmem, t, (hkeys t).mp ht, hnames⟩] at hspan
    cases hspan

end

/-- If the way through a document and the way through the same document with entries of its
maps in another order both come to their ends, they find the same problems, each as often and
at the same place. A message that ends with a set has the same set, in whatever order its names are
shown. Only where a type of data was looked for before all imported types were known, on one way or
the other, there may be a problem on one way that is not there on the other. -/
theorem problems_of_reordered {doc : Node} {language : Language} {site : Site}
    (hlanguage : (∃ v, (v, language) ∈ Language.publishedCatalog) ∨ language.orderly = true)
    {form : Form} {es es' : Node.Entries}
    (h : Node.Reordered (.map form es) (.map form es')) (htidy : AllMaps Tidy (.map form es))
    (hprefixes : ∀ form items, Node.Entries.field? es "$namespaces" = some (.seq form items) →
      ∀ i ∈ items, i.2.isKey = true)
    (hlinks : SteadyLinks { workspace := site.workspace, doc, language } site.readers.links)
    (problems : List Diagnostic) {a a' : Analysis}
    (hwalk : ((Document.walkThrough { workspace := site.workspace, doc, language } ⟨.map form es, []⟩
      (Document.beginning problems es)).run site).1 = (.ok (), a))
    (hwalk' : ((Document.walkThrough { workspace := site.workspace, doc, language } ⟨.map form es', []⟩
      (Document.beginning problems es')).run site).1 = (.ok (), a')) :
    ∃ common doubted doubted', a.problems.Perm (common ++ doubted) ∧
      a'.problems.Perm (common ++ doubted') ∧ ∀ d ∈ doubted ++ doubted', ∃ span names,
        d = expecting span names ∧ (LookedForEarly a span ∨ LookedForEarly a' span) := by
  classical
  have horderly : language.orderly = true := by
    rcases hlanguage with ⟨v, hpublished⟩ | horderly
    · exact (Language.published_inOrder _ hpublished).1
    · exact horderly
  obtain ⟨r, hends⟩ := ends_of_walkThrough hwalk
  obtain ⟨r', hends'⟩ := ends_of_walkThrough hwalk'
  let S : Scene :=
    { env := { workspace := site.workspace, doc, language }
      start := site.readers.links
      namespaces := (es.field? "$namespaces").getD (.map .plain [])
      types := importedTypes a
      doubtful := fun span => decide (LookedForEarly a span ∨ LookedForEarly a' span) }
  let D := (es'.field? "$namespaces").getD (.map .plain [])
  have hdeclared : Node.Reordered S.namespaces D := declared_reordered h htidy.1.textKeys _
  have hkeys : AllMaps TextKeys S.namespaces := declared_textKeys htidy _
  have hprefixed : ∀ form items, S.namespaces = .seq form items → ∀ i ∈ items, i.2.isKey = true := by
    intro form items hitems
    cases hfield : es.field? "$namespaces" with
    | none =>
      rw [show S.namespaces = _ from congrArg (Option.getD · _) hfield] at hitems
      cases hitems
    | some n =>
      rw [show S.namespaces = _ from congrArg (Option.getD · _) hfield] at hitems
      exact hprefixes form items (hfield.trans (congrArg some hitems))
  have hS : S.Sound := ⟨hlinks, rfl, horderly, hkeys⟩
  have hS' : Scene.Sound { S with namespaces := D } :=
    ⟨hlinks, rfl, horderly, Node.allMaps_of_reordered (fun h => h.textKeys) hdeclared hkeys⟩
  have hstanding : Standing S (Document.beginning problems es, site.readers.links) :=
    ⟨⟨[], rfl⟩, rfl, by simp [Document.beginning]⟩
  have hstanding' : Standing { S with namespaces := D } (Document.beginning problems es', site.readers.links) :=
    ⟨⟨[], rfl⟩, rfl, by simp [Document.beginning]⟩
  obtain ⟨m, hm, hfound⟩ := walk_finds hS htidy hstanding hends
  obtain ⟨m', hm', hfound'⟩ := walk_finds hS' (tidy_of_reordered h htidy) hstanding' hends'
  have halike : m.Alike m' := by
    have hmeaning := meaning_alike hS h htidy (rootTypes language) none none
    rw [hm, show S.env.meaning ⟨.map form es', rootTypes language, none, none⟩ = .ok m' from hm'] at hmeaning
    cases hmeaning with
    | ok hmm' => exact hmm'
  have hfindings := findTo_agrees hS hdeclared hprefixed (visitDepth (.map form es)) none none none halike h htidy
  rw [show visitDepth (.map form es') = visitDepth (.map form es) by
    rw [visitDepth, visitDepth, Node.depth_of_reordered h]] at hfound'
  have htypes : ∀ t, t ∈ S.types ↔ Node.Entries.hasField a.types t = true :=
    mem_importedTypes hfound.standing.typeKeys
  -- the same types are imported on both ways
  have htypes' : ∀ t, t ∈ S.types ↔ Node.Entries.hasField a'.types t = true := by
    intro t
    rw [htypes, hfound.types, hfound'.types, hfindings.imports.mem_iff]
    exact Iff.rfl
  have hinformed : Informed S a := informed_of_doubtful htypes fun span hspan =>
    decide_eq_true (.inl hspan)
  have hinformed' : Informed { S with namespaces := D } a' := informed_of_doubtful htypes' fun span hspan =>
    decide_eq_true (.inr hspan)
  obtain ⟨doubted, hproblems, hdoubted⟩ := hfound.problems hinformed
  obtain ⟨doubted', hproblems', hdoubted'⟩ := hfound'.problems hinformed'
  refine ⟨problems ++ (S.findTo (visitDepth (.map form es)) m (.map form es) none none none).problems, doubted,
    doubted', hproblems, hproblems'.trans ?_, ?_⟩
  · exact ((hfindings.problems.symm.append_left problems).append_right doubted')
  · intro d hd
    rcases List.mem_append.mp hd with hd | hd
    · obtain ⟨span, names, rfl, hspan⟩ := hdoubted d hd
      exact ⟨span, names, rfl, of_decide_eq_true hspan⟩
    · obtain ⟨span, names, rfl, hspan⟩ := hdoubted' d hd
      exact ⟨span, names, rfl, of_decide_eq_true hspan⟩

/-- A language of workflows in which any data may stand in a field. -/
def flowLanguage : Language :=
  ⟨[(.str "CommandLineTool", .record (.str "CommandLineTool") false []),
    (.str "ExpressionTool", .record (.str "ExpressionTool") false []),
    (.str "Workflow", .record (.str "Workflow") false
      (["class", "inputs", "outputs", "steps"].map fun field => (field, true, [.any])))]⟩

/-- A workflow with an input that nothing uses and an output that comes from nowhere. -/
def looseFlow : List (String × Node) :=
  [("class", .str "Workflow"), ("inputs", .placedMap [("reads", .str "File")]),
    ("outputs", .placedMap [("calls", .str "align/calls")]), ("steps", .placedMap [])]

/-- The way through a document that stands alone. -/
def walkAlone (fields : List (String × Node)) : Except Fault Unit × Analysis :=
  ((Document.walkThrough { workspace := Document.emptySite.workspace, doc := .str "a.cwl", language := flowLanguage }
    ⟨.placedMap fields, []⟩ {}).run Document.emptySite).1

theorem walkAlone_eq {fields} (h : (walkAlone fields).1.isOk = true) :
    walkAlone fields = (.ok (), (walkAlone fields).2) := by
  obtain ⟨u, hend⟩ := exists_of_isOk h
  exact Prod.ext hend rfl

theorem problems_of_reordered_sample : (walkAlone looseFlow).2.problems.length = 2 ∧
    ∃ common doubted doubted', (walkAlone looseFlow).2.problems.Perm (common ++ doubted) ∧
      (walkAlone looseFlow.reverse).2.problems.Perm (common ++ doubted') ∧
      ∀ d ∈ doubted ++ doubted', ∃ span names, d = expecting span names ∧
        (LookedForEarly (walkAlone looseFlow).2 span ∨ LookedForEarly (walkAlone looseFlow.reverse).2 span) := by
  have hlinks : SteadyLinks { workspace := Document.emptySite.workspace, doc := .str "a.cwl", language := flowLanguage }
      Document.emptySite.readers.links :=
    steadyLinks_of_alike (P := (· = Document.emptySite.readers.links))
      ⟨rfl, by simp [Workspace.linkable, Document.emptySite]⟩
  refine ⟨by decide +kernel, @problems_of_reordered _ _ _ (.inr (by decide +kernel)) _ _ _
    ⟨_, _, rfl, Node.EntriesReordered.refl _, (looseFlow.reverse_perm.symm.map _)⟩ (by decide +kernel) ?_ hlinks []
    _ _ (walkAlone_eq (by decide +kernel)) (walkAlone_eq (by decide +kernel))⟩
  intro form items hitems
  cases hitems

end CwlService.Analysis
