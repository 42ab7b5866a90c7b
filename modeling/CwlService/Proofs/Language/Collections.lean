import CwlService.Proofs.Language.Placement
import CwlService.Proofs.Node.Trails

/-! # Where collections may stand

In the published languages a field holds a collection or not by its name alone. An entry of a
collection is a record, and a record is never all that a field allows, so a plain value is taken
for a record only as an entry. -/
namespace CwlService

open List

/-- A type and all that is in it may stand where a part of a document does. -/
inductive CwlType.Fits : Part → CwlType → Prop where
  | base (part : Part) (name : Node) : Fits part (.base name)
  | enum (part : Part) (name : Node) (symbols : List Node) : Fits part (.enum name symbols)
  | unresolved (part : Part) (name : String) : Fits part (.unresolved name)
  | missing (part : Part) : Fits part .missing
  | any {part} (hpart : ∀ c, part ≠ .collection c) : Fits part .any
  | expression : Fits .plain .expression
  | array {name items} (h : ∀ t ∈ items, Fits .plain t) :
    Fits .plain (.array name items)
  | listOrMap {name items c} (h : ∀ t ∈ items, Fits (.entry c) t) :
    Fits (.collection c) (.listOrMap name items c.mapKey)
  | record {part name documented} {fields : Fields} (hpart : ∀ c, part ≠ .collection c)
      (hname : name.isPlainName = false)
      (h : ∀ f ∈ fields, ∀ t ∈ f.2.2, Fits (.ofField (.str f.1)) t)
      (halone : ∀ f ∈ fields, ∀ k documented others, f.2.2 ≠ [.record k documented others]) :
    Fits part (.record name documented fields)
  | union {part ts} (h : ∀ t ∈ ts, Fits part t) : Fits part (.union ts)

/-- Whether a type of a name may stand somewhere by itself. -/
def Part.allows (name : String) : Part → Bool
  | .plain => true
  | .entry _ => name != "Expression"
  | .collection _ => name == "null"

/-- A type may stand where a part of a document does, or is only found there by its name. -/
def CwlType.MayFit (part : Part) (t : CwlType) : Prop := t.Fits part ∨ t = .expression

/-- The types of a language may stand wherever there is no collection, and by themselves where
their names may. -/
structure Language.Fits (l : Language) : Prop where
  anywhere : ∀ n t, l.get? n = some t → ∀ part : Part, (∀ c, part ≠ .collection c) → t.MayFit part
  named : ∀ n t, l.get? n = some t → ∀ part : Part, part.allows n = true → t.Fits part

variable {t : CwlType}

theorem CwlType.Fits.alternatives {part} (h : t.Fits part) : ∀ u ∈ t.alternatives, u.Fits part := by
  cases h with
  | union h => exact h
  | _ => exact forall_mem_singleton.mpr (by constructor <;> assumption)

/-! ## Schemas -/

/-- Whether a key says that a collection is written as it is. -/
def Collection.isWritten (c : Collection) (k : MapKey) : Bool :=
  k.subject.isStr c.subject && match c.predicate with
    | some p => k.predicate.isStr p
    | none => k.predicate.isNull

theorem Collection.eq_mapKey {c : Collection} {k} (h : c.isWritten k = true) : k = c.mapKey := by
  obtain ⟨subject, predicate⟩ := k
  obtain ⟨own, stands⟩ := c
  rw [isWritten, Bool.and_eq_true, Node.isStr_iff] at h
  obtain ⟨rfl, hpredicate⟩ := h
  cases stands with
  | some p => exact congrArg (MapKey.mk _) (Node.isStr_iff.mp hpredicate)
  | none =>
    cases predicate with
    | null => rfl
    | _ => cases hpredicate

namespace Schema

mutual
/-- Whether what a schema makes may stand somewhere. -/
def fits (part : Part) (key : Option MapKey) : Schema → Bool
  | .union alternatives => fitAll part key alternatives
  | .array items =>
    match part, key with
    | .plain, none => fits .plain none items
    | .collection c, some k => c.isWritten k && fits (.entry c) none items
    | _, _ => false
  | s => s.name?.any (part.allows ·)

def fitAll (part : Part) (key : Option MapKey) : List Schema → Bool
  | [] => true
  | s :: rest => fits part key s && fitAll part key rest
end

def isRecord (records : List String) (s : Schema) : Bool := s.name?.any records.contains

/-- Whether a schema makes a record and nothing else, given the names of records. -/
def isAlone (records : List String) : Schema → Bool
  | .union [s] => s.isRecord records
  | s => s.isRecord records

/-- Whether a definition is a record by its name, and its fields hold what their names say. -/
def definesFields (records : List String) : Schema → Bool
  | .record name _ _ fields => !name.isPlainName && name.text?.any records.contains && fields.all fun f =>
    match f with
    | .field k key type => type.fits (.ofField k) key && !type.isAlone records
    | .fault _ => false
  | _ => true

/-- The names of the records that a schema defines. -/
def records (s : Schema) : List String := s.definers.filterMap fun d =>
  match d with
  | .record name _ _ _ => name.text?
  | _ => none

end Schema

namespace Language

/-- What is promised for a name: one type that stands where the name may, and a record only under
the name of one. -/
structure PartEntry (records : List String) (n : String) (t : CwlType) : Prop where
  anywhere : ∀ part : Part, (∀ c, part ≠ .collection c) → t.MayFit part
  fits : ∀ part : Part, part.allows n = true → t.Fits part
  single : t.alternatives = [t]
  record : ∀ k documented fields, t = .record k documented fields → n ∈ records

section

variable {records : List String}

variable {key : Option MapKey} {s : Schema} {part : Part} {documented : Bool} {name : Node} {fields : Fields}

theorem named_fits {field} (hs : s.name?.any (part.allows ·) = true)
    (h : MadeOf (.named (PartEntry records)) key field s t) : t.Fits part := by
  rw [Option.any_eq_true] at hs
  obtain ⟨n, hn, hallows⟩ := hs
  rcases h.of_name hn with rfl | hentry
  · exact .unresolved _ _
  · exact hentry.fits _ hallows

mutual
theorem fits_made : ∀ s {part key field t},
    s.fits part key = true → MadeOf (.named (PartEntry records)) key field s t → t.Fits part
  | .union alternatives, part, key, field, t, hs, h => by
    rw [MadeOf] at h
    obtain ⟨ts, rfl, hts⟩ := h
    exact .union (fitAll_made alternatives hs hts)
  | .array items, part, key, field, t, hs, h => by
    rw [MadeOf] at h
    obtain ⟨u, hu, rfl⟩ := h
    unfold Schema.fits at hs
    split at hs
    · exact .array (fits_made items hs hu).alternatives
    · rw [Bool.and_eq_true] at hs
      obtain rfl := Collection.eq_mapKey hs.1
      exact .listOrMap (fits_made items hs.2 hu).alternatives
    · cases hs
  | .ref _, _, _, _, _, hs, h | .enum _ _ _, _, _, _, _, hs, h | .record _ _ _ _, _, _, _, _, hs, h => by
    simp only [Schema.fits] at hs
    exact named_fits hs h
  | .unknown _, _, _, _, _, hs, _ | .fault _, _, _, _, _, hs, _ => by
    simp [Schema.fits, Schema.name?] at hs

theorem fitAll_made : ∀ ss {part key field ts},
    Schema.fitAll part key ss = true → MadeOfAll (.named (PartEntry records)) key field ss ts → ∀ t ∈ ts, t.Fits part
  | [], _, _, _, ts, _, h => by
    rw [MadeOfAll] at h
    rw [h]
    exact nofun
  | s :: rest, _, _, _, ts, hs, h => by
    rw [MadeOfAll] at h
    obtain ⟨t, others, rfl, ht, hothers⟩ := h
    rw [Schema.fitAll, Bool.and_eq_true] at hs
    exact forall_mem_cons.mpr ⟨fits_made s hs.1 ht, fitAll_made rest hs.2 hothers⟩
end

theorem isRecord_made {field} (hs : s.fits part key = true)
    (h : MadeOf (.named (PartEntry records)) key field s (.record name documented fields)) :
    s.isRecord records = true := by
  have hnamed : s.name?.any (part.allows ·) = true → s.isRecord records = true := by
    rw [Schema.isRecord, Option.any_eq_true, Option.any_eq_true]
    rintro ⟨n, hn, -⟩
    refine ⟨n, hn, contains_iff_mem.mpr ?_⟩
    exact ((h.of_name hn).resolve_left nofun).record _ _ _ rfl
  cases s with
  | union ss =>
    rw [MadeOf] at h
    obtain ⟨ts, ht, -⟩ := h
    cases ht
  | array items =>
    rw [MadeOf] at h
    obtain ⟨u, -, ht⟩ := h
    cases key <;> cases ht
  | _ =>
    simp only [Schema.fits] at hs
    exact hnamed hs

theorem isAlone_made {field} (hs : s.fits part key = true)
    (h : MadeOf (.named (PartEntry records)) key field s t)
    (ht : t.alternatives = [.record name documented fields]) :
    s.isAlone records = true := by
  cases s with
  | union ss =>
    rw [MadeOf] at h
    obtain ⟨_, rfl, hts⟩ := h
    cases show _ = [_] from ht
    match ss with
    | [] =>
      rw [MadeOfAll] at hts
      cases hts
    | [a] =>
      simp only [MadeOfAll] at hts
      obtain ⟨_, _, heq, ha, _⟩ := hts
      cases heq
      rw [Schema.fits, Schema.fitAll, Bool.and_eq_true] at hs
      exact isRecord_made hs.1 ha
    | _ :: _ :: _ =>
      simp only [MadeOfAll] at hts
      obtain ⟨_, _, heq, _, _, _, hrest, _⟩ := hts
      cases heq
      cases hrest
  | array items =>
    rw [MadeOf] at h
    obtain ⟨u, -, rfl⟩ := h
    cases key <;> cases ht
  | _ =>
    have hnamed := hs
    simp only [Schema.fits, Option.any_eq_true] at hnamed
    obtain ⟨n, hn, -⟩ := hnamed
    rcases h.of_name hn with rfl | hentry
    · cases ht
    · rw [hentry.single] at ht
      cases ht
      exact isRecord_made hs h

theorem definesFields_keeps {d} (h : d.definesFields records = true) :
    Keeps (.named (PartEntry records)) d := by
  cases d with
  | enum name parents symbols =>
    intro t ht n hn
    obtain ⟨k, hk, hname⟩ := ht.named
    rw [← hname] at hn
    rcases ht.simple with rfl | rfl | ⟨_, _, rfl⟩
    · cases hk
      obtain rfl : "Any" = n := by simpa [Node.isName] using hn
      refine ⟨fun part hpart => .inl (.any hpart), fun part hpart => .any ?_, rfl, nofun⟩
      rintro c rfl
      cases hpart
    · cases hk
      obtain rfl : "Expression" = n := by simpa [Node.isName] using hn
      refine ⟨fun _ _ => .inr rfl, fun part hpart => ?_, rfl, nofun⟩
      cases part with
      | plain => exact .expression
      | entry c => cases hpart
      | collection c => cases hpart
    · exact ⟨fun part _ => .inl (.enum part _ _), fun part _ => .enum part _ _, rfl, nofun⟩
  | record name documented parents fields =>
    intro inherited own htaken hown n hn
    rw [Schema.definesFields, Bool.and_eq_true, Bool.and_eq_true, Bool.not_eq_true', all_eq_true] at h
    obtain ⟨⟨hplain, hrecord⟩, hfields⟩ := h
    have hall : ∀ f ∈ (inherited ++ own).foldl Fields.put [],
        (∀ t ∈ f.2.2, t.Fits (.ofField (.str f.1))) ∧ ∀ k documented others, f.2.2 ≠ [.record k documented others] := by
      intro f hf
      rcases mem_append.mp ((Fields.mem_foldl_put hf).resolve_left nofun) with hf | hf
      · obtain ⟨n', _, _, _, _, hentry, hf⟩ := htaken f hf
        cases (hentry n' (by simp [Node.isName])).fits .plain rfl with
        | record _ _ h halone => exact ⟨h f hf, halone f hf⟩
      · obtain ⟨k, key, type, t, hmem, hk, htypes, ht⟩ := hown.of_mem hf
        have hfield := hfields _ hmem
        rw [Bool.and_eq_true, Bool.not_eq_true'] at hfield
        have hpart : Part.ofField (.str f.1) = .ofField k := by rw [Part.ofField, Part.ofField, hk]; rfl
        rw [htypes, hpart]
        refine ⟨(fits_made type hfield.1 ht).alternatives, fun name documented fields hsame => ?_⟩
        rw [isAlone_made hfield.1 ht hsame] at hfield
        cases hfield.2
    have hnot : n ≠ "null" := by
      rintro rfl
      simp [Node.isPlainName, hn] at hplain
    have hfits : ∀ part : Part, (∀ c, part ≠ .collection c) →
        CwlType.Fits part (.record name documented ((inherited ++ own).foldl Fields.put [])) := fun part hpart =>
      .record hpart hplain (fun f hf => (hall f hf).1) fun f hf => (hall f hf).2
    refine ⟨fun part hpart => .inl (hfits part hpart), fun part hpart => hfits part ?_, rfl, ?_⟩
    · rintro c rfl
      exact hnot (beq_iff_eq.mp hpart)
    · rintro k documented fields -
      rw [Option.any_eq_true] at hrecord
      obtain ⟨n', hn', hmem⟩ := hrecord
      obtain ⟨styled, rfl⟩ := Node.isName_iff.mp hn
      cases hn'
      exact contains_iff_mem.mp hmem
  | _ => trivial

end

/-! ## The published versions -/

theorem published_definesFields : ∀ s ∈ publishedSchemas,
    (s.2.definers.all (Schema.definesFields s.2.records)) = true := by decide +kernel

theorem published_fits : ∀ l ∈ publishedCatalog, l.2.Fits := by
  refine published_of (P := fun _ l => l.Fits) (fun _ => ⟨nofun, nofun⟩) ?_
  intro s hs l log hread
  have hkeeps : ∀ d ∈ s.2.definers, Keeps (.named (PartEntry s.2.records)) d := fun d hd =>
    definesFields_keeps (all_eq_true.mp (published_definesFields s hs) d hd)
  have hplain : ListsPlain (.named (PartEntry s.2.records)) := fun _ _ _ s _ n _ =>
    ⟨fun part _ => .inl (.base part s), fun part _ => .base part s, rfl, nofun⟩
  have hholds := ofSchema_holds hkeeps hplain hread
  exact ⟨fun n t hget => (hholds.get?_named hget).anywhere, fun n t hget => (hholds.get?_named hget).fits⟩

end Language
end CwlService
