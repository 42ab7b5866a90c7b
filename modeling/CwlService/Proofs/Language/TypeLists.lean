import CwlService.Proofs.Language.Placement
import CwlService.Sample.UserTypes

/-! # Where a tool lists the types that it defines

In every published language a tool lists its requirements by their classes, and one of them holds
the types that the tool defines. What a definition that stands in another file is taken for is
settled by the record that comes first among those types, and that record is not the same in all
versions. -/
namespace CwlService

open List

/-- The processes that run by themselves. -/
def Language.toolTypes : List String := ["CommandLineTool", "ExpressionTool"]

/-- The record that comes first among the types of a version. -/
def Language.firstType (version : String) : String :=
  if version == "v1.0" then "InputRecordSchema" else "CommandInputRecordSchema"

/-! ## Types of languages -/

namespace CwlType

/-- Only a name, which could not be resolved. -/
def IsRaw (t : CwlType) : Prop := ∃ name, t = .unresolved name

/-- A record of a name. -/
def IsRecord (name : String) (t : CwlType) : Prop :=
  ∃ k documented fields, t = .record k documented fields ∧ k.isName name = true

/-- A type of a name. -/
def HasName (name : String) (t : CwlType) : Prop := ∃ k, t.name? = .ok k ∧ k.isName name = true

/-- A list of types of which the first is a record of a name. -/
def ListsTypes (first : String) (types : List CwlType) : Prop :=
  ∃ field t rest, types = [.array field (t :: rest)] ∧ field.isName "types" = true ∧ (t.IsRaw ∨ t.IsRecord first)

/-- The requirement that holds types. -/
def HoldsTypes (first : String) (t : CwlType) : Prop := ∃ k documented fields,
  t = .record k documented fields ∧ k.isName UserTypes.requirementName = true ∧
    Fields.Named "types" (fun v => ListsTypes first v.2) fields

/-- A requirement by its class. -/
def IsRequirement (first : String) (t : CwlType) : Prop :=
  ∃ n, n ≠ "Any" ∧ t.HasName n ∧ (n = UserTypes.requirementName → t.HoldsTypes first)

/-- Nothing, or requirements by their classes, among them the one that holds types. -/
def ListsRequirements (first : String) (types : List CwlType) : Prop := ∃ none field items,
  types = [none, .listOrMap field items ⟨.str "class", .null⟩] ∧ (none.IsRaw ∨ none.HasName "null") ∧
    field.isName "requirements" = true ∧ (∀ t ∈ items, t.IsRaw ∨ t.IsRequirement first) ∧
    ∃ t ∈ items, t.IsRaw ∨ t.HoldsTypes first

end CwlType

/-- In a language, tools list requirements, among them the one that holds types. -/
def Language.ListsTypes (l : Language) (first : String) : Prop :=
  ∀ n ∈ toolTypes, ∀ k documented fields, l.get? n = some (.record k documented fields) →
    Fields.Named "requirements" (fun v => CwlType.ListsRequirements first v.2) fields

/-! ## Schemas -/

namespace SchemaField

/-- Whether a field lists types of which the first has a name. -/
def listsTypes (first : String) : SchemaField → Bool
  | .field _ none (.array (.union (s :: _))) => s.name? == some first
  | _ => false

/-- Whether a field lists requirements by their classes, among them the one that holds types. -/
def listsRequirements : SchemaField → Bool
  | .field _ (some k) (.union [nothing, .array (.union ss)]) =>
    nothing.name? == some "null" && k.subject.isStr "class" && k.predicate.isNull &&
      (ss.all fun s => s.name?.any fun n => n != "Any") &&
      ss.any fun s => s.name? == some UserTypes.requirementName
  | _ => false

end SchemaField

/-- Whether a name is one that only a record may have. -/
def Node.isTypesName (first : String) (n : Node) : Bool := n.isName first || n.isName UserTypes.requirementName

/-- Whether a definition is what tools rely on when they list types. -/
def Schema.definesTypes (first : String) : Schema → Bool
  | .enum name parents (.list own) => !name.isTypesName first &&
    (!name.isName "PrimitiveType" || parents.isEmpty && own.all fun s => !s.isTypesName first)
  | .enum _ _ _ => false
  | .record name _ _ fields =>
    (!name.isName UserTypes.requirementName ||
        SchemaField.haveNamed "types" (SchemaField.listsTypes first) fields) &&
      (!(Language.toolTypes.any name.isName) ||
        SchemaField.haveNamed "requirements" SchemaField.listsRequirements fields)
  | _ => true

namespace Language

/-- What tools rely on when they list types, for each name of a dictionary. -/
structure TypesEntry (first n : String) (t : CwlType) : Prop where
  named : t.HasName n
  record : n = first → t.IsRecord first
  holder : n = UserTypes.requirementName → t.HoldsTypes first
  tool : n ∈ toolTypes → ∀ k documented fields, t = .record k documented fields →
    Fields.Named "requirements" (fun v => CwlType.ListsRequirements first v.2) fields
  plain : n = "PrimitiveType" → ∀ k symbols, t = .enum k symbols → ∀ s ∈ symbols, s.isTypesName first = false

section

variable {first : String}

theorem listsTypes_made {k key type} (hk : k.isName "types" = true)
    (h : SchemaField.listsTypes first (.field k key type) = true) {t}
    (ht : MadeOf (.named (TypesEntry first)) key k type t) : CwlType.ListsTypes first t.alternatives := by
  unfold SchemaField.listsTypes at h
  split at h
  · rename_i s rest heq
    cases heq
    simp only [MadeOf, MadeOfAll] at ht
    obtain ⟨u, ⟨ts, rfl, v, others, rfl, hv, _⟩, rfl⟩ := ht
    refine ⟨k, v, others, rfl, hk, ?_⟩
    rcases hv.of_name (beq_iff_eq.mp h) with rfl | hentry
    · exact .inl ⟨_, rfl⟩
    · exact .inr (hentry.record rfl)
  · cases h

/-- Of types that are named, each is what is promised for its name or only the name. -/
theorem MadeOfAll.named {E : String → CwlType → Prop} {key field ss ts}
    (h : MadeOfAll (.named E) key field ss ts) {p : String → Bool}
    (hss : (ss.all fun s => s.name?.any p) = true) : (∀ t ∈ ts, t.IsRaw ∨ ∃ n, p n = true ∧ E n t) ∧
      ∀ n, (ss.any fun s => s.name? == some n) = true → ∃ t ∈ ts, t.IsRaw ∨ E n t := by
  induction ss generalizing ts with
  | nil =>
    rw [MadeOfAll] at h
    rw [h]
    exact ⟨fun _ ht => absurd ht not_mem_nil, fun _ hn => by cases hn⟩
  | cons s rest ih =>
    rw [MadeOfAll] at h
    obtain ⟨t, others, rfl, ht, hothers⟩ := h
    rw [all_cons, Bool.and_eq_true, Option.any_eq_true] at hss
    obtain ⟨⟨n, hn, hp⟩, hrest⟩ := hss
    have hfirst := ht.of_name hn
    obtain ⟨hall, hsome⟩ := ih hothers hrest
    constructor
    · refine forall_mem_cons.mpr ⟨?_, hall⟩
      exact hfirst.imp (fun h => ⟨n, h⟩) fun h => ⟨n, hp, h⟩
    · intro m hm
      rw [any_cons, Bool.or_eq_true, hn] at hm
      rcases hm with hm | hm
      · cases show n = m by simpa using hm
        exact ⟨t, mem_cons_self, hfirst.imp (fun h => ⟨n, h⟩) id⟩
      · obtain ⟨u, hu, hum⟩ := hsome m hm
        exact ⟨u, mem_cons_of_mem _ hu, hum⟩

theorem listsRequirements_made {k key type} (hk : k.isName "requirements" = true)
    (h : SchemaField.listsRequirements (.field k key type) = true) {t}
    (ht : MadeOf (.named (TypesEntry first)) key k type t) :
    CwlType.ListsRequirements first t.alternatives := by
  unfold SchemaField.listsRequirements at h
  split at h
  · rename_i mapKey none ss heq
    cases heq
    simp only [Bool.and_eq_true, beq_iff_eq] at h
    obtain ⟨⟨⟨⟨hnone, hsubject⟩, hpredicate⟩, hall⟩, hholder⟩ := h
    obtain ⟨subject, predicate⟩ := mapKey
    obtain rfl := Node.isStr_iff.mp hsubject
    obtain rfl : predicate = .null := by
      cases predicate with
      | null => rfl
      | _ => cases hpredicate
    simp only [MadeOf, MadeOfAll] at ht
    obtain ⟨_, rfl, u, _, rfl, hu, _, _, rfl, ⟨_, ⟨ts, rfl, hts⟩, rfl⟩, rfl⟩ := ht
    obtain ⟨heach, hsome⟩ := MadeOfAll.named hts hall
    refine ⟨u, k, ts, rfl, ?_, hk, ?_, ?_⟩
    · exact (hu.of_name hnone).imp (fun h => ⟨_, h⟩) fun h => h.named
    · intro t ht
      refine (heach t ht).imp id ?_
      rintro ⟨n, hn, hentry⟩
      exact ⟨n, by simpa using hn, hentry.named, hentry.holder⟩
    · obtain ⟨t, ht, hentry⟩ := hsome _ hholder
      exact ⟨t, ht, hentry.imp id fun h => h.holder rfl⟩
  · cases h

theorem isTypesName_false {n : Node} : n.isTypesName first = false ↔
    n.isName first = false ∧ n.isName UserTypes.requirementName = false := by
  rw [Node.isTypesName, Bool.or_eq_false_iff]

theorem definesTypes_sound {d} (h : d.definesTypes first = true) : Keeps (.named (TypesEntry first)) d := by
  cases d with
  | enum name parents symbols =>
    intro t ht n hn
    cases symbols with
    | list own =>
      rw [Schema.definesTypes, Bool.and_eq_true, Bool.not_eq_true', isTypesName_false] at h
      obtain ⟨⟨hfirst, hholder⟩, hplain⟩ := h
      obtain ⟨k, hk, hname⟩ := ht.named
      refine ⟨⟨k, hk, by rw [hname, hn]⟩, ?_, ?_, ?_, ?_⟩
      · rintro rfl
        rw [hn] at hfirst
        cases hfirst
      · rintro rfl
        rw [hn] at hholder
        cases hholder
      · intro _ k documented fields heq
        rcases ht.simple with rfl | rfl | ⟨_, _, rfl⟩ <;> cases heq
      · rintro rfl k shown heq s hs
        rw [hn, Bool.not_true, Bool.false_or, Bool.and_eq_true, List.isEmpty_iff, all_eq_true] at hplain
        simpa using hplain.2 s (ht.listed own rfl hplain.1 k shown heq s hs)
    | _ => cases h
  | record name documented parents fields =>
    intro inherited own _ hown n hn
    rw [Schema.definesTypes, Bool.and_eq_true] at h
    have hput : ∀ {field : String} {P : Bool × List CwlType → Prop}, Fields.Named field P own →
        Fields.Named field P ((inherited ++ own).foldl Fields.put []) := by
      intro field P hnamed
      rw [foldl_append]
      exact Fields.Named.foldl_put (.inl hnamed)
    refine ⟨⟨name, rfl, hn⟩, ?_, ?_, ?_, nofun⟩
    · rintro rfl
      exact ⟨_, _, _, rfl, hn⟩
    · rintro rfl
      have htypes := h.1
      rw [hn, Bool.not_true, Bool.false_or] at htypes
      exact ⟨_, _, _, rfl, hn, hput (FieldsBuilt.named
        (fun k key type hk hkind _ t ht => listsTypes_made hk hkind ht) htypes hown)⟩
    · rintro htool k _ _ ⟨⟩
      have hrequirements := h.2
      rw [show toolTypes.any name.isName = true from any_eq_true.mpr ⟨n, htool, hn⟩, Bool.not_true,
        Bool.false_or] at hrequirements
      exact hput (FieldsBuilt.named
        (fun k key type hk hkind _ t ht => listsRequirements_made hk hkind ht) hrequirements hown)
  | _ => trivial

theorem typesEntry_plain : ListsPlain (.named (TypesEntry first)) := by
  intro k symbols h s hs n hn
  obtain ⟨hfirst, hholder⟩ := isTypesName_false.mp
    ((h "PrimitiveType" (by simp [Node.isName])).plain rfl k symbols rfl s hs)
  refine ⟨⟨s, rfl, hn⟩, ?_, ?_, nofun, nofun⟩
  · rintro rfl
    rw [hn] at hfirst
    cases hfirst
  · rintro rfl
    rw [hn] at hholder
    cases hholder

theorem ofSchema_listsTypes {s} (hs : (s.definers.all fun d => d.definesTypes first) = true) {l log}
    (h : ofSchema s = .ok (l, log)) : l.ListsTypes first := by
  have hholds : Holds (.named (TypesEntry first)) l :=
    ofSchema_holds (fun d hd => definesTypes_sound (all_eq_true.mp hs d hd)) typesEntry_plain h
  intro n hn k documented fields hget
  exact (hholds.get?_named hget).tool hn k documented fields rfl

end

/-! ## The published versions -/

theorem published_definesTypes : ∀ s ∈ publishedSchemas,
    (s.2.definers.all fun d => d.definesTypes (firstType s.1)) = true := by decide +kernel

theorem published_listsTypes : ∀ l ∈ publishedCatalog, l.2.ListsTypes (firstType l.1) := by
  refine published_of (P := fun v l => l.ListsTypes (firstType v)) (fun _ => nofun) ?_
  exact fun s hs l log hread => ofSchema_listsTypes (published_definesTypes s hs) hread

end Language
end CwlService
