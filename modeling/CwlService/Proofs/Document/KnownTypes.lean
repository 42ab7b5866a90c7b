import CwlService.Proofs.Analysis.ToolTypes
import CwlService.Proofs.Document.Samples

/-! # Types known in a tool, and types that it defines

The types that a tool defines are told in two ways: some are found when its document is worked on,
and all are listed when another process runs it. Both go by the requirement that holds types, but
on the way through the document only imports are noticed, and only where the language takes them for
links to types. There they are followed like any link, while the list has what is in files. -/
namespace CwlService

open List

namespace UserTypes

/-- A type is defined in the process itself. -/
def NamedInside (process k : Node) : Prop := ∃ i ∈ typeItems process, importOf i.2 = none ∧
  ∃ n ∈ i.2.field? "name", n.isNull = false ∧ n.same k = true

/-- A type is defined in a file that the process imports. -/
def NamedInFile (w : Workspace) (doc : Node) (r : Yaml.Reader) (process k : Node) : Prop :=
  ∃ i ∈ typeItems process, ∃ path ∈ importOf i.2, ∃ t ∈ importedNames w doc r path, k.isName t = true

/-- A type is defined where a link leads that the process imports. -/
def NamedByLink (w : Workspace) (doc : Node) (r : Yaml.Reader) (process k : Node) : Prop :=
  ∃ i ∈ typeItems process, ∃ path ∈ importOf i.2, ∃ t ∈ linkNames w doc r path, k.isName t = true

/-- All that a process imports among its definitions are files that are named by their paths. -/
def ImportsFiles (process : Node) : Prop :=
  ∀ i ∈ typeItems process, ∀ path ∈ importOf i.2, isByPath path = true

instance (process k : Node) : Decidable (NamedInside process k) :=
  inferInstanceAs (Decidable (∃ i ∈ typeItems process, _))

instance (w : Workspace) (doc : Node) (r : Yaml.Reader) (process k : Node) :
    Decidable (NamedByLink w doc r process k) :=
  inferInstanceAs (Decidable (∃ i ∈ typeItems process, _))

section

variable {w : Workspace} {doc : Node} {r : Yaml.Reader}

theorem head?_importedNames {path t} :
    (importedNames w doc r path).head? = some t ↔ t ∈ importedNames w doc r path := by
  unfold importedNames Analysis.importedName
  split
  · split <;> simp [eq_comm]
  · simp

theorem nameOf_same {n k} : (∃ name, nameOf w doc r n = some name ∧ name.same k = true) ↔
    (importOf n = none ∧ ∃ name ∈ n.field? "name", name.isNull = false ∧ name.same k = true) ∨
    ∃ path ∈ importOf n, ∃ t ∈ importedNames w doc r path, k.isName t = true := by
  cases n with
  | map form own =>
    rw [nameOf, importOf]
    cases imported? own with
    | none => simp [Node.field?, Option.filter_eq_some_iff, and_assoc]
    | some path =>
      have hstr : ∀ t, (Node.str t).same k = k.isName t := fun t => Node.same_of_isName (by simp [Node.isName])
      simp [Option.map_eq_some_iff, head?_importedNames, hstr]
  | _ => simp [nameOf, importOf, Node.field?]

theorem named_iff {process k} :
    (∃ i ∈ typeItems process, ∃ n, nameOf w doc r i.2 = some n ∧ n.same k = true) ↔
      NamedInside process k ∨ NamedInFile w doc r process k := by
  unfold NamedInside NamedInFile
  simp only [nameOf_same, and_or_left, exists_or]

theorem namedByLink_iff {process k} (h : ImportsFiles process) :
    NamedByLink w doc r process k ↔ NamedInFile w doc r process k := by
  refine exists_congr fun i => and_congr_right fun hi => exists_congr fun path => and_congr_right fun hpath => ?_
  rw [linkNames_eq_importedNames doc (h i hi path hpath)]

theorem linkNames_eq {P : Yaml.Reader → Prop} (hw : w.Steady P) (doc path : Node) {r'} (hr : P r)
    (hr' : P r') : linkNames w doc r' path = linkNames w doc r path := by
  unfold linkNames linkData
  rw [(Workspace.followNode_alike (hw.alike hr) doc path none hr').1]

end

end UserTypes

namespace Document

open Analysis (Scene Tidy Standing)
open Node (AllMaps)
open UserTypes (typeItems NamedInside NamedInFile NamedByLink ImportsFiles Nameable listed)

/-- A type is among others by its name. -/
def HasType (types : Node.Entries) (k : Node) : Prop := (types.any fun e => e.1.same k) = true

theorem hasType_iff {types} (h : ∀ e ∈ types, ∃ name, e.1 = Node.str name) {k} :
    HasType types k ↔ ∃ t, types.hasField t = true ∧ k.isName t = true := by
  simp only [HasType, Node.Entries.hasField, any_eq_true]
  constructor
  · rintro ⟨e, he, hk⟩
    obtain ⟨t, ht⟩ := h e he
    have hname : e.1.isName t = true := by simp [ht, Node.str, Node.isName]
    rw [Node.same_of_isName hname] at hk
    exact ⟨t, ⟨e, he, hname⟩, hk⟩
  · rintro ⟨t, ⟨e, he, hname⟩, hk⟩
    exact ⟨e, he, by rwa [Node.same_of_isName hname]⟩

theorem languageFor_supported {catalog v l} (h : catalog.lookup v = some l) (styled : Bool) :
    languageFor catalog (.text v styled) = .ok (l, []) := by
  simp [languageFor, Node.isKey, Node.text?, h, pure, Except.pure]

theorem types_of_job {d : Document} {job} (h : d.job = .ok job) : d.analysis.types = job.types := by
  unfold Document.job at h
  split at h <;> cases h
  rfl

/-- What is known of the types of a tool after the way through it: those that it imports, in the
first version. -/
theorem hasType_walked {w} {P : Yaml.Reader → Prop} (hsteady : w.Steady P) {start}
    (hstart : P start) {language} (horderly : language.orderly = true)
    (hsteps : language.ListsSteps) {v} (htypes : language.ListsTypes (Language.firstType v))
    {uri form} {es : Node.Entries} {kind} (hkind : kind ∈ Language.toolTypes) {styled}
    (hclass : es.field? "class" = some (.text kind styled)) (htidy : AllMaps Tidy (.map form es))
    (honly : Analysis.importsTypesOnly es = true) {problems a left}
    (hends : Analysis.Ends (Analysis.walk { workspace := w, doc := uri, language } ⟨.map form es, []⟩)
      (beginning problems es, start) () (a, left)) {r} (hr : P r) (k) :
    HasType a.types k ↔ v = "v1.0" ∧ NamedByLink w uri r (.map form es) k := by
  let S : Scene :=
    { env := { workspace := w, doc := uri, language }
      start := start
      namespaces := (es.field? "$namespaces").getD (.map .plain [])
      types := Analysis.importedTypes a
      doubtful := fun _ => true }
  have hS : S.Sound := ⟨Analysis.steadyLinks_of_alike (hsteady.alike hstart), rfl, horderly,
    Analysis.declared_textKeys htidy _⟩
  have hstanding : Standing S (beginning problems es, start) := ⟨⟨[], rfl⟩, rfl, by simp [beginning]⟩
  obtain ⟨_, _, hfound⟩ := Analysis.walk_finds hS htidy hstanding hends
  have himports : ∀ t, Node.Entries.hasField a.types t = true ↔
      S.ImportsType v ((listed ((es.field? "requirements").getD .null)).toOption.getD .null) t := by
    intro t
    rw [Analysis.tool_imports hS hsteps htypes htidy hkind hclass honly hstanding hends t]
    simp [beginning, Node.Entries.hasField]
  rw [hasType_iff hfound.standing.typeKeys]
  simp only [himports]
  constructor
  · rintro ⟨t, ⟨hv, i, hi, path, hpath, ht⟩, hk⟩
    rw [← UserTypes.linkNames_eq hsteady uri path hstart hr] at ht
    exact ⟨hv, i, hi, path, hpath, t, ht, hk⟩
  · rintro ⟨hv, i, hi, path, hpath, t, ht, hk⟩
    rw [UserTypes.linkNames_eq hsteady uri path hstart hr] at ht
    exact ⟨t, ⟨hv, i, hi, path, hpath, ht⟩, hk⟩

section

variable {catalog : Language.Catalog} {form : Form} {es : Node.Entries} {problems : List Diagnostic} {d : Document}
  {site after : Site} {u : Updated}

/-- In a tool that imports nothing but types, those types are known that its requirement imports, by
whatever link, in the first version. What it defines can be told exactly if its definitions can be
named, and is what they are called, in it or in files. So where it imports files, the two agree
exactly if nothing is defined in the tool alone, and nothing at all in later versions. -/
theorem known_types
    (hcatalog : ∀ l ∈ catalog, l ∈ Language.publishedCatalog ∨
      l.2.orderly = true ∧ l.2.ListsSteps ∧ l.2.ListsTypes (Language.firstType l.1))
    {P : Yaml.Reader → Prop} (hsteady : site.workspace.Steady P) (hlinks : P site.readers.links) {text : Node}
    (hread : ((readText text).run site).1 = .ok (⟨.map form es, []⟩, problems)) {v : String} {plain : Bool}
    (hversion : Node.Entries.field? es "cwlVersion" = some (.text v plain))
    (hsupported : (catalog.lookup v).isSome = true) {kind : String} (hkind : kind ∈ Language.toolTypes)
    {styled : Bool} (hclass : Node.Entries.field? es "class" = some (.text kind styled))
    (htidy : AllMaps Tidy (.map form es)) (honly : Analysis.importsTypesOnly es = true)
    (hupdate : (d.update text catalog).run site = (u, after)) (hok : u.outcome.isOk = true) {r : Yaml.Reader}
    (hr : P r) :
    (∀ k, HasType u.document.analysis.types k ↔
      v = "v1.0" ∧ NamedByLink site.workspace d.uri r (.map form es) k) ∧
    GivesIf ((listed ((Node.Entries.field? es "requirements").getD .null)).isOk = true ∧
        ∀ i ∈ typeItems (.map form es), Nameable site.workspace d.uri r i.2)
      (fun types =>
        (∀ k, HasType types k ↔
          NamedInside (.map form es) k ∨ NamedInFile site.workspace d.uri r (.map form es) k) ∧
        (ImportsFiles (.map form es) → ((∀ k, HasType u.document.analysis.types k ↔ HasType types k) ↔
          (∀ k, NamedInside (.map form es) k → NamedInFile site.workspace d.uri r (.map form es) k) ∧
            (v = "v1.0" ∨ ∀ k, ¬HasType types k))))
      ((UserTypes.of site.workspace d.uri (.map form es)).run.run r).1 := by
  obtain ⟨language, hlookup⟩ := Option.isSome_iff_exists.mp hsupported
  obtain ⟨_, logs, a, hlanguage, hends, -, hjob⟩ := goneIn_of_update hread hupdate hok
  rw [hversion, Option.getD_some, languageFor_supported hlookup] at hlanguage
  cases hlanguage
  have hlisted : language.orderly = true ∧ language.ListsSteps ∧ language.ListsTypes (Language.firstType v) := by
    rcases hcatalog _ (mem_of_lookup hlookup) with hpublished | hother
    · obtain ⟨horderly, hsteps⟩ := Language.published_inOrder _ hpublished
      exact ⟨horderly, hsteps, Language.published_listsTypes _ hpublished⟩
    · exact hother
  obtain ⟨horderly, hsteps, hlists⟩ := hlisted
  have hknown : ∀ k, HasType u.document.analysis.types k ↔
      v = "v1.0" ∧ NamedByLink site.workspace d.uri r (.map form es) k := by
    rw [types_of_job hjob]
    exact hasType_walked hsteady hlinks horderly hsteps hlists hkind hclass htidy honly hends hr
  have hdefined := UserTypes.of_run hsteady d.uri form es hr
  refine ⟨hknown, hdefined.isOk_iff, fun types hgiven => ?_⟩
  have htypes : ∀ k, HasType types k ↔
      NamedInside (.map form es) k ∨ NamedInFile site.workspace d.uri r (.map form es) k :=
    fun k => (hdefined.gives types hgiven k).trans UserTypes.named_iff
  refine ⟨htypes, fun hfiles => ?_⟩
  simp only [hknown, htypes, UserTypes.namedByLink_iff hfiles]
  constructor
  · intro hsame
    refine ⟨fun k hk => ((hsame k).mpr (.inl hk)).2, ?_⟩
    by_cases hv : v = "v1.0"
    · exact .inl hv
    · exact .inr fun k hk => hv ((hsame k).mpr hk).1
  · rintro ⟨hinside, hfirst⟩ k
    refine ⟨fun h => .inr h.2, fun h => ⟨?_, h.elim (hinside k) id⟩⟩
    exact hfirst.resolve_right fun hnone => hnone k h

end

/-! ## A type of its own -/

/-- A requirement that holds records. -/
def recordsRequirement : CwlType := .record (.str UserTypes.requirementName) false
  [("class", true, [.any]),
    ("types", true, [.array (.str "types") [.record (.str "InputRecordSchema") false [("name", false, [.any])]]])]

/-- The fields of a tool that may have that requirement. -/
def toolFields : Fields :=
  [("class", true, [.any]), ("cwlVersion", false, [.any]), ("requirements", false,
    [.base (.str "null"), .listOrMap (.str "requirements") [recordsRequirement] ⟨.str "class", .null⟩])]

/-- A language of such tools. -/
def toolLanguage : Language := ⟨[(.str "CommandLineTool", .record (.str "CommandLineTool") false toolFields)]⟩

theorem toolLanguage_listsSteps : toolLanguage.ListsSteps := by
  constructor <;> simp [Language.processTypes, Language.get?, Language.find?, toolLanguage, Node.isName, Node.str]

theorem toolLanguage_listsTypes : toolLanguage.ListsTypes (Language.firstType "v1.0") := by
  have hholds : recordsRequirement.HoldsTypes (Language.firstType "v1.0") := by
    refine ⟨_, _, _, rfl, by decide, ⟨_, .tail _ (.head _), rfl⟩, ?_⟩
    simp only [forall_mem_cons]
    refine ⟨fun h => absurd h (by decide), fun _ => ⟨_, _, _, rfl, by decide, .inr ⟨_, _, _, rfl, by decide⟩⟩, by simp⟩
  have hlists : Fields.Named "requirements"
      (fun v => CwlType.ListsRequirements (Language.firstType "v1.0") v.2) toolFields := by
    refine ⟨⟨_, .tail _ (.tail _ (.head _)), rfl⟩, ?_⟩
    simp only [toolFields, forall_mem_cons]
    refine ⟨fun h => absurd h (by decide), fun h => absurd h (by decide), fun _ => ?_, by simp⟩
    refine ⟨_, _, _, rfl, .inr ⟨_, rfl, by decide⟩, by decide, ?_, _, .head _, .inr hholds⟩
    intro t ht
    obtain rfl := mem_singleton.mp ht
    exact .inr ⟨UserTypes.requirementName, by decide, ⟨_, rfl, by decide⟩, fun _ => hholds⟩
  intro n hn k documented fields h
  simp only [Language.toolTypes, mem_cons, not_mem_nil, or_false] at hn
  rcases hn with rfl | rfl <;>
    simp only [Language.get?, Language.find?, toolLanguage, Node.str, Node.same_text, Node.isName] at h <;> cases h
  exact hlists

/-- Whether what was read is a tidy tool that imports types only, and whether it alone has a type. -/
def isTypedTool (site : Site) (uri k : Node) : Except Fault (Yaml.Reader.Loaded × List Diagnostic) → Bool
  | .ok (⟨.map form es, []⟩, _) =>
    ((Node.Entries.field? es "cwlVersion").any (·.isName "v1.0")) &&
      ((Node.Entries.field? es "class").any (·.isName "CommandLineTool")) &&
      decide (AllMaps Tidy (.map form es)) && Analysis.importsTypesOnly es &&
      decide (NamedInside (.map form es) k) &&
      !decide (NamedByLink site.workspace uri site.readers.links (.map form es) k) &&
      ((UserTypes.of site.workspace uri (.map form es)).run.run site.readers.links).1.isOk
  | _ => false

theorem exists_of_isTypedTool {site uri k r} (h : isTypedTool site uri k r = true) : ∃ form es problems plain styled,
      r = .ok (⟨.map form es, []⟩, problems) ∧ Node.Entries.field? es "cwlVersion" = some (.text "v1.0" plain) ∧
      Node.Entries.field? es "class" = some (.text "CommandLineTool" styled) ∧ AllMaps Tidy (.map form es) ∧
      Analysis.importsTypesOnly es = true ∧ NamedInside (.map form es) k ∧
      ¬NamedByLink site.workspace uri site.readers.links (.map form es) k ∧
      ((UserTypes.of site.workspace uri (.map form es)).run.run site.readers.links).1.isOk = true := by
  unfold isTypedTool at h
  split at h
  · rename_i form es problems
    simp only [Bool.and_eq_true, decide_eq_true_eq, Bool.not_eq_true', decide_eq_false_iff_not,
      Option.any_eq_true] at h
    obtain ⟨⟨⟨⟨⟨⟨⟨v, hv, hversion⟩, c, hc, hclass⟩, htidy⟩, honly⟩, hinside⟩, hlink⟩, hlisted⟩ := h
    obtain ⟨plain, rfl⟩ := Node.isName_iff.mp hversion
    obtain ⟨styled, rfl⟩ := Node.isName_iff.mp hclass
    exact ⟨form, es, problems, plain, styled, rfl, hv, hc, htidy, honly, hinside, hlink, hlisted⟩
  · cases h

/-- A tool that defines a type. -/
def typedText : Node := .str
  "class: CommandLineTool\ncwlVersion: v1.0\nrequirements: [{class: SchemaDefRequirement, types: [{name: own}]}]"

/-- What becomes of a document with that text. -/
def typed : Updated × Site := (update { uri := .str "a.cwl" } typedText [("v1.0", toolLanguage)]).run emptySite

theorem known_types_own : ∃ process types,
    ((readText typedText).run emptySite).1.map (·.1.node) = .ok process ∧
    ((UserTypes.of emptySite.workspace (.str "a.cwl") process).run.run emptySite.readers.links).1 = .ok types ∧
    HasType types (.str "own") ∧ ¬HasType typed.1.document.analysis.types (.str "own") := by
  have heval : isTypedTool emptySite (.str "a.cwl") (.str "own") ((readText typedText).run emptySite).1 = true ∧
      typed.1.outcome.isOk = true := by
    decide +kernel
  obtain ⟨htool, hok⟩ := heval
  obtain ⟨form, es, problems, plain, styled, hread, hversion, hclass, htidy, honly, hinside, hlink, hlisted⟩ :=
    exists_of_isTypedTool htool
  have hcatalog : ∀ l ∈ [("v1.0", toolLanguage)], l ∈ Language.publishedCatalog ∨
      l.2.orderly = true ∧ l.2.ListsSteps ∧ l.2.ListsTypes (Language.firstType l.1) := by
    intro l hl
    obtain rfl := mem_singleton.mp hl
    exact .inr ⟨by decide +kernel, toolLanguage_listsSteps, toolLanguage_listsTypes⟩
  obtain ⟨hknown, hdefined⟩ := known_types hcatalog emptySite_steady rfl hread hversion rfl (.head _) hclass htidy honly
    (Prod.eta typed).symm hok (r := emptySite.readers.links) rfl
  obtain ⟨types, htypes⟩ := exists_of_isOk hlisted
  refine ⟨.map form es, types, by rw [hread]; rfl, htypes, ?_, ?_⟩
  · exact ((hdefined.gives types htypes).1 _).mpr (.inl hinside)
  · exact fun h => hlink ((hknown _).mp h).2

end Document
end CwlService
