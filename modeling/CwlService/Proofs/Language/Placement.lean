import CwlService.Proofs.Language.Definitions
import CwlService.Proofs.Language.Roles

/-! # Where schemas put steps

A schema can be looked through for steps that stand where they may not, without reading it into
a language. A schema in which there are none has a language in order, whatever its readings
could resolve, and the published schemas are of that kind. -/
namespace CwlService

open List

/-! ## Schemas in order -/

/-- Whether a type has a process for its name. -/
def Node.isProcess (n : Node) : Bool := Language.processTypes.any n.isName

def Parent.isNamed (p : Parent) (name : String) : Bool :=
  match p with
  | .named n => n == name
  | .fault _ => false

/-- Whether a schema is an array and nothing else. -/
def Schema.isArray : Schema → Bool
  | .array _ => true
  | .union [.array _] => true
  | _ => false

namespace SchemaField

def isNamed (name : String) : SchemaField → Bool
  | .field k _ _ => k.isName name
  | .fault _ => false

/-- Whether there are fields of a name, all of a kind. -/
def haveNamed (name : String) (p : SchemaField → Bool) (fields : List SchemaField) : Bool :=
  fields.any (·.isNamed name) && fields.all fun f => !f.isNamed name || p f

/-- Whether a field lists what is in it by `id`. -/
def isListing : SchemaField → Bool
  | .field name key type => name.isStr "steps" && (key.any fun k => k.subject.isStr "id") && type.isArray
  | .fault _ => false

end SchemaField

namespace Schema

mutual
/-- Whether steps stand where they may in a schema, and processes are what they should be. -/
def placed (role : Role) (key : Option MapKey) (field : Node) : Schema → Bool
  | .ref name => name != "WorkflowStep" || role == .step
  | .union alternatives => placedAll role key field alternatives
  | .array items =>
    if key.isSome && field.isName "steps" then role == .steps && placed .step none .null items
    else placed .plain none .null items
  | .enum name parents (.list symbols) =>
    !name.isProcess && (!name.isName "PrimitiveType" ||
      parents.isEmpty && symbols.all fun s => !s.isProcess)
  | .enum _ _ _ => false
  | .record name _ parents fields =>
    (!name.isName "WorkflowStep" || role == .step) && (parents.all fun p => !p.isNamed "Workflow") &&
      (!name.isProcess || Language.processTypes.any name.isStr) &&
      (!name.isName "Workflow" || SchemaField.haveNamed "steps" SchemaField.isListing fields) &&
      placedFields (name.isName "Workflow") fields
  | _ => true

def placedAll (role : Role) (key : Option MapKey) (field : Node) : List Schema → Bool
  | [] => true
  | s :: rest => placed role key field s && placedAll role key field rest

def placedFields (isWorkflow : Bool) : List SchemaField → Bool
  | [] => true
  | .field name key type :: rest =>
    placed (.ofField isWorkflow (name.text?.getD "")) key name type && placedFields isWorkflow rest
  | .fault _ :: rest => placedFields isWorkflow rest
end

end Schema

variable {fs gs : Fields} {P : Bool × List CwlType → Prop} {role : Role} {t : CwlType}

/-! ## Fields -/

namespace Fields

variable {f : String × Bool × List CwlType} {name : String}

theorem mem_put {g} : g ∈ fs.put f ↔ g = f ∨ g ∈ fs ∧ g.1 ≠ f.1 := by
  unfold put
  split
  · rename_i hany
    obtain ⟨old, hold, hname⟩ := any_eq_true.mp hany
    rw [mem_map]
    constructor
    · rintro ⟨g', hg', rfl⟩
      by_cases hsame : g'.1 = f.1 <;> simp [hsame, hg']
    · rintro (rfl | ⟨hg, hne⟩)
      · exact ⟨old, hold, by rw [if_pos hname]⟩
      · exact ⟨g, hg, by rw [if_neg (by simpa using hne)]⟩
  · rename_i hany
    have hne : ∀ g ∈ fs, g.1 ≠ f.1 := fun g hg heq => hany (any_eq_true.mpr ⟨g, hg, by simpa using heq⟩)
    rw [mem_append, mem_singleton, or_comm]
    exact or_congr_right ⟨fun hg => ⟨hg, hne g hg⟩, And.left⟩

theorem mem_foldl_put (h : f ∈ gs.foldl put fs) : f ∈ fs ∨ f ∈ gs := by
  induction gs generalizing fs with
  | nil => exact .inl h
  | cons g gs ih =>
    rcases ih h with h | h
    · rcases mem_put.mp h with rfl | h
      · exact .inr mem_cons_self
      · exact .inl h.1
    · exact .inr (mem_cons_of_mem _ h)

/-- There are fields of a name, and all of them are of some kind. -/
def Named (name : String) (P : Bool × List CwlType → Prop) (fs : Fields) : Prop :=
  (∃ f ∈ fs, f.1 = name) ∧ ∀ f ∈ fs, f.1 = name → P f.2

theorem Named.foldl_put (h : Named name P gs ∨ Named name P fs ∧ ∀ f ∈ gs, f.1 = name → P f.2) :
    Named name P (gs.foldl put fs) := by
  induction gs generalizing fs with
  | nil =>
    rcases h with ⟨⟨_, hf, _⟩, _⟩ | h
    · cases hf
    · exact h.1
  | cons g gs ih =>
    have hall : ∀ f ∈ g :: gs, f.1 = name → P f.2 := h.elim And.right And.right
    obtain ⟨hg, hrest⟩ := forall_mem_cons.mp hall
    refine ih ?_
    by_cases hname : g.1 = name
    · refine .inr ⟨⟨⟨g, mem_put.mpr (.inl rfl), hname⟩, ?_⟩, hrest⟩
      intro f hf hfname
      rcases mem_put.mp hf with rfl | hf
      · exact hg hname
      · exact absurd (hfname.trans hname.symm) hf.2
    · rcases h with ⟨⟨f, hf, hfname⟩, _⟩ | ⟨⟨⟨f, hf, hfname⟩, hfs⟩, _⟩
      · rcases mem_cons.mp hf with rfl | hf
        · exact absurd hfname hname
        · exact .inl ⟨⟨f, hf, hfname⟩, hrest⟩
      · refine .inr ⟨⟨⟨f, mem_put.mpr (.inr ⟨hf, fun heq => hname (heq ▸ hfname)⟩), hfname⟩, ?_⟩, hrest⟩
        intro f' hf' hf'name
        rcases mem_put.mp hf' with rfl | hf'
        · exact hg hf'name
        · exact hfs f' hf'.1 hf'name

theorem Named.get? (h : Named name P fs) : ∃ v, fs.get? name = some v ∧ P v := by
  obtain ⟨⟨f, hf, hname⟩, hall⟩ := h
  cases hget : fs.get? name with
  | none =>
    have hne := lookup_eq_none_iff.mp hget f hf
    simp [hname] at hne
  | some v =>
    obtain ⟨l₁, l₂, hl, _⟩ := lookup_eq_some_iff.mp hget
    exact ⟨v, rfl, hall (name, v) (hl ▸ mem_append_right _ mem_cons_self) rfl⟩

end Fields

/-- Alternatives are asked for one by one, and not together. -/
theorem CwlType.orderly_of_alternatives (h : ∀ a ∈ t.alternatives, a.orderly role = true) :
    t.orderly role = true := by
  cases t with
  | union alternatives => rfl
  | _ => exact h _ (mem_singleton.mpr rfl)

theorem CwlType.fieldsOrderly_iff {isWorkflow} : fieldsOrderly isWorkflow fs = true ↔
    ∀ f ∈ fs, allOrderly (.ofField isWorkflow f.1) f.2.2 = true := by
  induction fs with
  | nil => simp [fieldsOrderly]
  | cons f rest ih => rw [fieldsOrderly, Bool.and_eq_true, ih, forall_mem_cons]

/-! ## Dictionaries in order -/

/-- A type has a list of steps by `id`, and nothing else. -/
def ListsById (types : List CwlType) : Prop :=
  ∃ items predicate, types = [.listOrMap (.str "steps") items ⟨.str "id", predicate⟩]

/-- What stands under a key of a dictionary stands where it may. Processes are records by their
names, and no plain type has the name of one. -/
structure Language.EntryInOrder (k : Node) (t : CwlType) : Prop where
  orderly : ∀ a ∈ t.alternatives, a.orderly (if k.isName "WorkflowStep" then .step else .plain) = true
  root : ∀ n ∈ processTypes, k.isName n = true → ∃ documented fields,
    t = .record (.str n) documented fields
  workflow : ∀ n documented fields, t = .record n documented fields → n.isName "Workflow" = true →
    k.isName "Workflow" = true ∧ Fields.Named "steps" (fun v => ListsById v.2) fields
  plain : k.isName "PrimitiveType" = true → ∀ n symbols, t = .enum n symbols →
    ∀ s ∈ symbols, s.isProcess = false

theorem Language.EntryInOrder.of_same {k k'} (h : EntryInOrder k t) (hsame : k.same k' = true) :
    EntryInOrder k' t := by
  have hname := Node.isName_of_same hsame
  obtain ⟨horderly, hroot, hworkflow, hplain⟩ := h
  simp only [hname] at horderly hroot hworkflow hplain
  exact ⟨horderly, hroot, hworkflow, hplain⟩

namespace Language

/-- That all stands where it may. -/
def inOrder : Promise := ⟨EntryInOrder, .of_same⟩

section

variable {l : Language}

theorem Holds.orderly (hl : Holds inOrder l) : l.orderly = true :=
  all_eq_true.mpr fun e he => CwlType.orderly_of_alternatives (EntryInOrder.orderly (hl e he))

theorem Holds.listsSteps (hl : Holds inOrder l) : l.ListsSteps := by
  constructor
  · intro t ht u hu
    exact EntryInOrder.root (hl.get? hu) t ht (by simp [Node.isName])
  · intro documented fields hflow
    obtain ⟨_, hsteps⟩ := EntryInOrder.workflow (hl.get? hflow) _ _ _ rfl (by simp [Node.isName])
    obtain ⟨⟨required, types⟩, hget, items, predicate, rfl⟩ := hsteps.get?
    exact ⟨required, items, predicate, hget⟩

end

/-! ## What is made of schemas in order -/

variable {parents : List Parent} {name : Node} {s : Schema} {key : Option MapKey} {field : Node}

theorem EntryInOrder.orderly_as (h : EntryInOrder name t)
    (hrole : (!name.isName "WorkflowStep" || role == .step) = true) : ∀ a ∈ t.alternatives, a.orderly role = true := by
  intro a ha
  have horderly := h.orderly a ha
  rw [Bool.or_eq_true, Bool.not_eq_true', beq_iff_eq] at hrole
  rcases hrole with hname | rfl
  · rw [if_neg (by simp [hname])] at horderly
    exact CwlType.orderly_of_plain horderly role
  · split at horderly
    · exact horderly
    · exact CwlType.orderly_of_plain horderly _

theorem EnumMadeOf.orderly {own} (h : EnumMadeOf name parents (.list own) t) (role : Role) :
    ∀ a ∈ t.alternatives, a.orderly role = true := by
  rcases h.simple with rfl | rfl | ⟨k, shown, rfl⟩
  · simp [CwlType.alternatives, CwlType.orderly]
  · simp [CwlType.alternatives, CwlType.orderly]
  · intro a ha
    rw [mem_singleton.mp ha]
    exact all_eq_true.mpr (h.keys own rfl k shown rfl)

mutual
theorem orderly_made : ∀ s {role key field t},
    s.placed role key field = true → MadeOf inOrder key field s t → ∀ a ∈ t.alternatives, a.orderly role = true
  | .ref name, role, key, field, t, hplaced, h => by
    rw [MadeOf] at h
    rcases h with rfl | hentry
    · simp [CwlType.alternatives, CwlType.orderly]
    · refine EntryInOrder.orderly_as hentry ?_
      simpa [Schema.placed, Node.isName] using hplaced
  | .union alternatives, role, key, field, t, hplaced, h => by
    rw [MadeOf] at h
    obtain ⟨ts, rfl, hts⟩ := h
    rw [Schema.placed] at hplaced
    exact allOrderly_made alternatives hplaced hts
  | .array items, role, key, field, t, hplaced, h => by
    rw [MadeOf] at h
    obtain ⟨u, hu, rfl⟩ := h
    rw [Schema.placed] at hplaced
    cases key with
    | none =>
      intro a ha
      rw [mem_singleton.mp ha, CwlType.orderly]
      exact CwlType.allOrderly_iff.mpr (orderly_made items hplaced hu)
    | some k =>
      intro a ha
      rw [Option.isSome_some, Bool.true_and] at hplaced
      rw [mem_singleton.mp ha, CwlType.orderly]
      split
      · rename_i hsteps
        rw [if_pos hsteps, Bool.and_eq_true] at hplaced
        rw [hplaced.1]
        exact CwlType.allOrderly_iff.mpr (orderly_made items hplaced.2 hu)
      · rename_i hsteps
        rw [if_neg hsteps] at hplaced
        exact CwlType.allOrderly_iff.mpr (orderly_made items hplaced hu)
  | .enum name parents symbols, role, key, field, t, hplaced, h => by
    rw [MadeOf] at h
    cases symbols with
    | list own => exact h.1.orderly role
    | _ => cases hplaced
  | .record name documented parents fields, role, key, field, t, hplaced, h => by
    rw [MadeOf] at h
    simp only [Schema.placed, Bool.and_eq_true] at hplaced
    exact EntryInOrder.orderly_as h hplaced.1.1.1.1
  | .unknown data, role, key, field, t, hplaced, h => by
    rw [MadeOf] at h
    rw [h]
    simp [CwlType.alternatives, CwlType.orderly]
  | .fault f, role, key, field, t, hplaced, h => by
    rw [MadeOf] at h
    exact h.elim

theorem allOrderly_made : ∀ ss {role key field ts}, Schema.placedAll role key field ss = true →
    MadeOfAll inOrder key field ss ts →
      ∀ t ∈ ts, t.orderly role = true
  | [], role, key, field, ts, hplaced, h => by
    rw [MadeOfAll] at h
    rw [h]
    exact nofun
  | s :: rest, role, key, field, ts, hplaced, h => by
    rw [MadeOfAll] at h
    obtain ⟨t, others, rfl, ht, hothers⟩ := h
    rw [Schema.placedAll, Bool.and_eq_true] at hplaced
    refine forall_mem_cons.mpr ⟨?_, allOrderly_made rest hplaced.2 hothers⟩
    exact CwlType.orderly_of_alternatives (orderly_made s hplaced.1 ht)
end

theorem placed_of_mem {isWorkflow fields type} (h : Schema.placedFields isWorkflow fields = true)
    (hmem : .field name key type ∈ fields) :
    type.placed (.ofField isWorkflow (name.text?.getD "")) key name = true := by
  induction fields with
  | nil => cases hmem
  | cons f rest ih =>
    cases f with
    | fault f =>
      rw [Schema.placedFields] at h
      exact ih h ((mem_cons.mp hmem).resolve_left nofun)
    | field name key type =>
      rw [Schema.placedFields, Bool.and_eq_true] at h
      rcases mem_cons.mp hmem with heq | hmem
      · cases heq
        exact h.1
      · exact ih h.2 hmem

theorem TakenOver.orderly (h : TakenOver inOrder parents fs)
    (hparents : (parents.all fun p => !p.isNamed "Workflow") = true) :
    ∀ f ∈ fs, ∀ t ∈ f.2.2, t.orderly .plain = true := by
  intro f hf
  obtain ⟨n, k, documented, fields, hn, hentry, hf⟩ := h f hf
  have hrecord := EntryInOrder.orderly hentry _ (mem_singleton.mpr rfl)
  rw [CwlType.orderly, Bool.and_eq_true] at hrecord
  have hother : k.isName "Workflow" = false := by
    rw [Bool.eq_false_iff]
    intro hflow
    have hname := (EntryInOrder.workflow hentry k documented fields rfl hflow).1
    have hparent := all_eq_true.mp hparents _ hn
    simp [Parent.isNamed, Node.isName] at hparent hname
    exact hparent hname
  rw [hother] at hrecord
  exact CwlType.allOrderly_iff.mp (CwlType.fieldsOrderly_iff.mp hrecord.2 f hf)

theorem MadeOf.isListing {E k} (harray : s.isArray = true) (h : MadeOf E (some k) field s t) :
    ∃ items, t.alternatives = [.listOrMap field items k] := by
  unfold Schema.isArray at harray
  split at harray
  · rw [MadeOf] at h
    obtain ⟨u, _, rfl⟩ := h
    exact ⟨_, rfl⟩
  · simp only [MadeOf, MadeOfAll] at h
    obtain ⟨_, rfl, _, _, rfl, ⟨u, _, rfl⟩, rfl⟩ := h
    exact ⟨_, rfl⟩
  · cases harray

theorem FieldsBuilt.named {R : Option MapKey → Node → Schema → CwlType → Prop} {name}
    {p : SchemaField → Bool}
    (hp : ∀ k key type, k.isName name = true → p (.field k key type) = true → ∀ required t,
      R key k type t → P (required, t.alternatives))
    {fs} (hfs : SchemaField.haveNamed name p fs = true) (h : FieldsBuilt R fs gs) :
    Fields.Named name P gs := by
  have hbuilt : ∀ {fs : List SchemaField} {gs : Fields}, FieldsBuilt R fs gs →
      (fs.all fun f => !f.isNamed name || p f) = true →
      (fs.any (·.isNamed name) = true → ∃ g ∈ gs, g.1 = name) ∧ ∀ g ∈ gs, g.1 = name → P g.2 := by
    intro fs
    induction fs with
    | nil =>
      intro gs h _
      cases show gs = [] from h
      exact ⟨nofun, nofun⟩
    | cons f rest ih =>
      intro gs h hall
      cases f with
      | fault f => cases h
      | field k key type =>
        obtain ⟨n, required, t, others, hn, rfl, ht, hothers⟩ := h
        rw [all_cons, Bool.and_eq_true] at hall
        obtain ⟨hsome, hrest⟩ := ih hothers hall.2
        have hname : k.isName name = true ↔ n = name := by
          cases k with
          | text s styled =>
            cases hn
            exact beq_iff_eq
          | _ => cases hn
        constructor
        · rw [any_cons, Bool.or_eq_true]
          rintro (hfirst | hlater)
          · exact ⟨_, mem_cons_self, hname.mp hfirst⟩
          · obtain ⟨g, hg, hgname⟩ := hsome hlater
            exact ⟨g, mem_cons_of_mem _ hg, hgname⟩
        · refine forall_mem_cons.mpr ⟨fun hnname => ?_, hrest⟩
          have hk := hname.mpr hnname
          have hkind := hall.1
          rw [SchemaField.isNamed, hk, Bool.not_true, Bool.false_or] at hkind
          exact hp k key type hk hkind required t ht
  rw [SchemaField.haveNamed, Bool.and_eq_true] at hfs
  obtain ⟨hsome, hkind⟩ := hbuilt h hfs.2
  exact ⟨hsome hfs.1, hkind⟩

theorem FieldsBuilt.listing {E fs}
    (hfs : SchemaField.haveNamed "steps" SchemaField.isListing fs = true)
    (h : FieldsBuilt (MadeOf E) fs gs) :
    Fields.Named "steps" (fun v => ListsById v.2) gs := by
  refine FieldsBuilt.named ?_ hfs h
  intro k key type _ hlisting required t ht
  rw [SchemaField.isListing, Bool.and_eq_true, Bool.and_eq_true, Option.any_eq_true] at hlisting
  obtain ⟨⟨hstr, ⟨subject, predicate⟩, rfl, hid⟩, harray⟩ := hlisting
  obtain ⟨items, hitems⟩ := ht.isListing harray
  rw [Node.isStr_iff.mp hstr, show subject = .str "id" from Node.isStr_iff.mp hid] at hitems
  exact ⟨items, predicate, hitems⟩

theorem placed_keeps (hplaced : s.placed role key field = true) : Keeps inOrder s := by
  cases s with
  | enum name parents symbols =>
    intro t ht
    cases symbols with
    | list own =>
      rw [Schema.placed, Bool.and_eq_true, Bool.not_eq_true'] at hplaced
      obtain ⟨hprocess, hplain⟩ := hplaced
      refine ⟨ht.orderly _, ?_, ?_, ?_⟩
      · intro n hn hname
        exact absurd hname (any_eq_false.mp hprocess n hn)
      · intro n documented fields heq
        rcases ht.simple with rfl | rfl | ⟨_, _, rfl⟩ <;> cases heq
      · intro hname k shown heq s hs
        rw [hname, Bool.not_true, Bool.false_or, Bool.and_eq_true, List.isEmpty_iff, all_eq_true] at hplain
        simpa using hplain.2 s (ht.listed own rfl hplain.1 k shown heq s hs)
    | _ => cases hplaced
  | record name documented parents fields =>
    intro inherited own htaken hown
    simp only [Schema.placed, Bool.and_eq_true] at hplaced
    obtain ⟨⟨⟨⟨_, hparents⟩, hprocess⟩, hflow⟩, hfields⟩ := hplaced
    have hall : CwlType.fieldsOrderly (name.isName "Workflow") ((inherited ++ own).foldl Fields.put []) = true := by
      rw [CwlType.fieldsOrderly_iff]
      intro f hf
      rw [CwlType.allOrderly_iff]
      rcases mem_append.mp ((Fields.mem_foldl_put hf).resolve_left nofun) with hf | hf
      · exact fun t ht => CwlType.orderly_of_plain (htaken.orderly hparents f hf t ht) _
      · obtain ⟨k, key, type, t, hmem, hk, htypes, ht⟩ := hown.of_mem hf
        have hplaced := placed_of_mem hfields hmem
        rw [hk] at hplaced
        rw [htypes]
        exact orderly_made type hplaced ht
    refine ⟨?_, ?_, ?_, nofun⟩
    · intro a ha
      rw [mem_singleton.mp ha, CwlType.orderly, hall]
      cases name.isName "WorkflowStep" <;> rfl
    · intro n hn hname
      have hstr : processTypes.any name.isStr = true := by
        rwa [show name.isProcess = true from any_eq_true.mpr ⟨n, hn, hname⟩] at hprocess
      obtain ⟨p, _, hp⟩ := any_eq_true.mp hstr
      rw [Node.isStr_iff] at hp
      rw [hp] at hname ⊢
      rw [show p = n by simpa [Node.isName] using hname]
      exact ⟨documented, _, rfl⟩
    · rintro n _ _ ⟨⟩ hname
      rw [hname, Bool.not_true, Bool.false_or] at hflow
      refine ⟨hname, ?_⟩
      rw [foldl_append]
      exact Fields.Named.foldl_put (.inl (hown.listing hflow))
  | _ => trivial

theorem inOrder_plain : ListsPlain inOrder := by
  intro k symbols h s hs
  have hother := EntryInOrder.plain h (by simp [Node.isName]) k symbols rfl s hs
  refine ⟨by simp [CwlType.alternatives, CwlType.orderly], ?_, nofun, nofun⟩
  intro n hn hname
  exact absurd hname (any_eq_false.mp hother n hn)

/-! ## The published versions -/

/-- What holds of the languages that published schemas are read into holds of all published ones. -/
theorem published_of {P : String → Language → Prop} (hempty : ∀ v, P v ⟨[]⟩)
    (h : ∀ s ∈ publishedSchemas, ∀ l log, ofSchema s.2 = .ok (l, log) → P s.1 l) :
    ∀ l ∈ publishedCatalog, P l.1 l.2 := by
  intro l hl
  obtain ⟨⟨v, s⟩, hs, rfl⟩ := mem_map.mp hl
  dsimp only
  unfold ofSoundSchema
  split
  · rename_i hread
    exact h _ hs _ _ hread
  · exact hempty v

theorem published_placed : ∀ s ∈ publishedSchemas,
    (s.2.definers.all fun d => d.placed .step none .null) = true := by decide +kernel

theorem published_inOrder : ∀ l ∈ publishedCatalog, l.2.orderly = true ∧ l.2.ListsSteps := by
  refine published_of (P := fun _ l => l.orderly = true ∧ l.ListsSteps) (fun _ => ⟨rfl, nofun, nofun⟩) ?_
  intro s hs l log hread
  have hin := ofSchema_holds
    (fun d hd => placed_keeps (all_eq_true.mp (published_placed s hs) d hd)) inOrder_plain hread
  exact ⟨hin.orderly, hin.listsSteps⟩

end Language
end CwlService
