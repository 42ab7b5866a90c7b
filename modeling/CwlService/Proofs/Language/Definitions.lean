import CwlService.Proofs.Language.Passes
import CwlService.Proofs.Node.Order

/-! # What the entries of a dictionary are made of

Every entry of a dictionary is made of a definition in the schema, or is a plain type. So what
each definition promises for its name, given that what it refers to was promised, holds of all
entries. A name that could not be resolved is all that a reading can make besides. -/
namespace CwlService

open List

namespace Schema

mutual
/-- The definitions in a schema, wherever they stand. -/
def definers : Schema → List Schema
  | .union alternatives => definersAll alternatives
  | .array items => definers items
  | .enum name parents symbols => [.enum name parents symbols]
  | .record name documented parents fields =>
    .record name documented parents fields :: definersIn fields
  | _ => []

def definersAll : List Schema → List Schema
  | [] => []
  | s :: rest => definers s ++ definersAll rest

def definersIn : List SchemaField → List Schema
  | [] => []
  | .field _ _ type :: rest => definers type ++ definersIn rest
  | .fault _ :: rest => definersIn rest
end

/-- The name that a type is defined or referred to by. -/
def name? : Schema → Option String
  | .ref name => some name
  | .enum name _ _ => name.text?
  | .record name _ _ _ => name.text?
  | _ => none

end Schema

namespace Language

/-- What is promised of the types in a dictionary, for their keys however these are written. -/
structure Promise where
  Made : Node → CwlType → Prop
  of_same : ∀ {k k' : Node} {t : CwlType}, Made k t → k.same k' = true → Made k' t

/-- What is promised for names. -/
def Promise.named (E : String → CwlType → Prop) : Promise where
  Made k t := ∀ n, k.isName n = true → E n t
  of_same h hsame n hn := h n (by rwa [Node.isName_of_same hsame])

variable {E : Promise}

/-- All that stands in a dictionary is what is promised for its key. -/
def Holds (E : Promise) (l : Language) : Prop := ∀ e ∈ l.types, E.Made e.1 e.2

variable {t : CwlType} {name : Node} {b b' : Building} {parents : List Parent} {key : Option MapKey}
  {s : Schema} {last : Option Nat} {l : Language}

theorem Holds.put (hl : Holds E l) (h : E.Made name t) : Holds E (l.put name t) := by
  intro e he
  rw [types_put] at he
  rcases Table.mem_replaced he with ⟨he, -⟩ | rfl | ⟨f, -, hsame, rfl⟩
  · exact hl e he
  · exact h
  · exact E.of_same h (by rwa [Node.same_comm])

theorem Holds.get? (hl : Holds E l) {name} (h : l.get? name = some t) : E.Made (.str name) t := by
  obtain ⟨e, he, rfl⟩ := Option.map_eq_some_iff.mp h
  have hsame : e.1.same (.str name) = true := by simpa using find?_some he
  exact E.of_same (hl e (mem_of_find?_eq_some he)) hsame

theorem Holds.get?_named {E : String → CwlType → Prop} (hl : Holds (.named E) l) {n}
    (h : l.get? n = some t) : E n t := hl.get? h n (by simp [Node.isName])

theorem Holds.define {u} (hb : Holds E b.language) (hdefine : Returns (define name t) b u b')
    (h : E.Made name t) : u = t ∧ Holds E b'.language := by
  obtain ⟨rfl, rfl⟩ := define_returns hdefine
  exact ⟨rfl, hb.put h⟩

/-! ## What a reading makes -/

/-- What a reading makes of an enumeration: something of its name without parts, and if that has
symbols they are keys, and those that are listed unless it takes over others. -/
structure EnumMadeOf (name : Node) (parents : List Parent) (symbols : Symbols) (t : CwlType) : Prop where
  named : ∃ k, t.name? = .ok k ∧ ∀ n, k.isName n = name.isName n
  simple : t = .any ∨ t = .expression ∨ ∃ k shown, t = .enum k shown
  listed : ∀ own, symbols = .list own → parents = [] → ∀ k shown, t = .enum k shown → ∀ s ∈ shown, s ∈ own
  keys : ∀ own, symbols = .list own → ∀ k shown, t = .enum k shown → ∀ s ∈ shown, s.isKey = true

/-- What is made of the fields of a record, given what is made of their types. -/
def FieldsBuilt (R : Option MapKey → Node → Schema → CwlType → Prop) : List SchemaField → Fields → Prop
  | [], gs => gs = []
  | .field name key type :: rest, gs => ∃ n required t others, name.text? = some n ∧
    gs = (n, required, t.alternatives) :: others ∧ R key name type t ∧ FieldsBuilt R rest others
  | .fault _ :: _, _ => False

theorem FieldsBuilt.of_mem {R : Option MapKey → Node → Schema → CwlType → Prop} {fs gs}
    (h : FieldsBuilt R fs gs) {g} (hg : g ∈ gs) :
    ∃ k key type t, .field k key type ∈ fs ∧ k.text? = some g.1 ∧ g.2.2 = t.alternatives ∧ R key k type t := by
  induction fs generalizing gs with
  | nil =>
    cases show gs = [] from h
    cases hg
  | cons f rest ih =>
    cases f with
    | fault f => cases h
    | field k key type =>
      obtain ⟨n, required, t, others, hn, rfl, ht, hothers⟩ := h
      rcases mem_cons.mp hg with rfl | hg
      · exact ⟨k, key, type, t, mem_cons_self, hn, rfl, ht⟩
      · obtain ⟨k', key', type', t', hmem, hfield⟩ := ih hothers hg
        exact ⟨k', key', type', t', mem_cons_of_mem _ hmem, hfield⟩

mutual
/-- What a reading makes of a schema, if the entries of the dictionary are as promised. -/
def MadeOf (E : Promise) (key : Option MapKey) (field : Node) : Schema → CwlType → Prop
  | .ref name, t => t = .unresolved name ∨ E.Made (.str name) t
  | .union alternatives, t => ∃ ts, t = .union ts ∧ MadeOfAll E key field alternatives ts
  | .array items, t => ∃ u, MadeOf E none .null items u ∧ t = match key with
    | none => .array field u.alternatives
    | some k => .listOrMap field u.alternatives k
  | .enum name parents symbols, t => EnumMadeOf name parents symbols t ∧ E.Made name t
  | .record name _ _ _, t => E.Made name t
  | .unknown _, t => t = .missing
  | .fault _, _ => False

def MadeOfAll (E : Promise) (key : Option MapKey) (field : Node) : List Schema → List CwlType → Prop
  | [], ts => ts = []
  | s :: rest, ts => ∃ t others, ts = t :: others ∧ MadeOf E key field s t ∧ MadeOfAll E key field rest others
end

/-- Fields that are taken over from records of the dictionary. -/
def TakenOver (E : Promise) (parents : List Parent) (inherited : Fields) : Prop := ∀ f ∈ inherited,
  ∃ n k documented fields, .named n ∈ parents ∧ E.Made (.str n) (.record k documented fields) ∧ f ∈ fields

/-- A definition keeps what is promised for its name. -/
def Keeps (E : Promise) : Schema → Prop
  | .enum name parents symbols => ∀ t, EnumMadeOf name parents symbols t → E.Made name t
  | .record name documented parents fields => ∀ inherited own, TakenOver E parents inherited →
    FieldsBuilt (MadeOf E) fields own →
    E.Made name (.record name documented ((inherited ++ own).foldl Fields.put []))
  | _ => True

theorem inheritedFields_takenOver {fs} (hb : Holds E b.language)
    (h : Returns (inheritedFields parents) b fs b') : TakenOver E parents fs := by
  induction parents generalizing fs with
  | nil =>
    rw [h.pure.1]
    exact nofun
  | cons p rest ih =>
    obtain ⟨name, own, others, rfl, rfl, hrest, hown⟩ := inheritedFields_cases h
    intro f hf
    rcases mem_append.mp hf with hf | hf
    · rcases hown with ⟨_, rfl⟩ | ⟨n, documented, hget⟩
      · cases hf
      · exact ⟨name, n, documented, own, mem_cons_self, hb.get? hget, hf⟩
    · obtain ⟨n, k, documented, fields, hn, hentry⟩ := ih hrest f hf
      exact ⟨n, k, documented, fields, mem_cons_of_mem _ hn, hentry⟩

theorem MadeOf.of_name {E : String → CwlType → Prop} {field n} (h : MadeOf (.named E) key field s t)
    (hn : s.name? = some n) : t = .unresolved n ∨ E n t := by
  have hname : ∀ {name : Node}, name.text? = some n → name.isName n = true := fun h =>
    Node.mem_text?.mp (Option.mem_toList.mpr h)
  cases s with
  | ref name =>
    cases hn
    rw [MadeOf] at h
    exact h.imp id fun h => h n (by simp [Node.isName])
  | enum name parents symbols =>
    rw [MadeOf] at h
    exact .inr (h.2 n (hname hn))
  | record name documented parents fields =>
    rw [MadeOf] at h
    exact .inr (h n (hname hn))
  | _ => cases hn

theorem withInherited_list {own r} (h : Returns (withInherited (.list own) parents) b r b') :
    ∃ all, r = .list all ∧ (parents = [] → all = own) := by
  induction parents generalizing own with
  | nil => exact ⟨own, h.pure.1, fun _ => rfl⟩
  | cons p rest ih =>
    obtain ⟨_, _, ⟨_, hrest⟩ | ⟨_, _, _, _, hrest⟩⟩ := withInherited_cases h <;>
    · obtain ⟨all, hr, _⟩ := ih hrest
      exact ⟨all, hr, nofun⟩

theorem allSymbols_list {own all} (h : allSymbols (.list own) = .ok all) :
    ∀ s ∈ all, s ∈ own ∧ s.isKey = true := by
  unfold allSymbols at h
  dsimp only at h
  split at h
  · rename_i hkeys
    cases h
    intro s hs
    have hmem := NameSet.mem_of_mem_ofList hs
    exact ⟨hmem, all_eq_true.mp hkeys s hmem⟩
  · cases h

theorem enum_madeOf {field symbols} (hb : Holds E b.language)
    (h : Returns (build last key field (.enum name parents symbols)) b t b') :
    EnumMadeOf name parents symbols t ∧ (E.Made name t → Holds E b'.language) := by
  obtain ⟨m, u, hdefine, hlanguage, hu⟩ := enum_returns h
  rw [← hlanguage] at hb
  obtain rfl := (define_returns hdefine).1
  refine ⟨?_, fun ht => (hb.define hdefine ht).2⟩
  rcases hu with ⟨-, ⟨rfl, hname⟩ | ⟨rfl, hname⟩⟩ | ⟨-, inherited, all, hinherited, hall, hu⟩
  · obtain ⟨styled, rfl⟩ := Node.isName_iff.mp hname
    exact ⟨⟨_, rfl, fun _ => rfl⟩, .inl rfl, nofun, nofun⟩
  · obtain ⟨styled, rfl⟩ := Node.isName_iff.mp hname
    exact ⟨⟨_, rfl, fun _ => rfl⟩, .inr (.inl rfl), nofun, nofun⟩
  · obtain ⟨shown, rfl, hshown⟩ : ∃ shown, t = .enum name shown ∧ ∀ s ∈ shown, s ∈ all := by
      rcases hu with ⟨_, rfl⟩ | ⟨_, rfl, _⟩
      · exact ⟨all, rfl, fun _ => id⟩
      · exact ⟨_, rfl, fun _ hs => (mem_filter.mp hs).1⟩
    refine ⟨⟨name, rfl, fun _ => rfl⟩, .inr (.inr ⟨_, _, rfl⟩), ?_, ?_⟩
    · rintro own rfl rfl k _ ⟨⟩ s hs
      obtain ⟨listed, rfl, hlisted⟩ := withInherited_list hinherited
      rw [← hlisted rfl]
      exact (allSymbols_list hall s (hshown s hs)).1
    · rintro own rfl k _ ⟨⟩ s hs
      obtain ⟨listed, rfl, _⟩ := withInherited_list hinherited
      exact (allSymbols_list hall s (hshown s hs)).2

mutual
theorem build_madeOf (last) : ∀ s {key field b b' t}, (∀ d ∈ s.definers, Keeps E d) → Holds E b.language →
      Returns (build last key field s) b t b' → MadeOf E key field s t ∧ Holds E b'.language
  | .ref name, key, field, b, b', t, _, hb, h => by
    obtain ⟨rfl, rfl⟩ := ref_returns h
    refine ⟨?_, hb⟩
    rw [MadeOf]
    cases hget : b'.language.get? name with
    | none => exact .inl rfl
    | some t => exact .inr (hb.get? hget)
  | .union alternatives, key, field, b, b', t, hs, hb, h => by
    simp only [build] at h
    obtain ⟨ts, m, hts, ret⟩ := h.bind
    obtain ⟨rfl, rfl⟩ := ret.pure
    rw [Schema.definers] at hs
    obtain ⟨hmade, hb'⟩ := buildAll_madeOf last alternatives hs hb hts
    refine ⟨?_, hb'⟩
    rw [MadeOf]
    exact ⟨ts, rfl, hmade⟩
  | .array items, key, field, b, b', t, hs, hb, h => by
    simp only [build] at h
    obtain ⟨u, m, hu, rest⟩ := h.bind
    rw [Schema.definers] at hs
    obtain ⟨hmade, hm⟩ := build_madeOf last items hs hb hu
    rw [MadeOf]
    cases key with
    | none =>
      obtain ⟨rfl, rfl⟩ := rest.pure
      exact ⟨⟨u, hmade, rfl⟩, hm⟩
    | some k =>
      obtain ⟨rfl, rfl⟩ := rest.pure
      exact ⟨⟨u, hmade, rfl⟩, hm⟩
  | .enum name parents symbols, key, field, b, b', t, hs, hb, h => by
    rw [Schema.definers, forall_mem_singleton] at hs
    obtain ⟨hmade, hb'⟩ := enum_madeOf hb h
    have ht := hs t hmade
    rw [MadeOf]
    exact ⟨⟨hmade, ht⟩, hb' ht⟩
  | .record name documented parents fields, key, field, b, b', t, hs, hb, h => by
    simp only [build] at h
    obtain ⟨inherited, m, hi, rest⟩ := h.bind
    have htaken := inheritedFields_takenOver hb hi
    obtain rfl := inheritedFields_returns hi
    obtain ⟨own, m', ho, hdefine⟩ := rest.bind
    rw [Schema.definers, forall_mem_cons] at hs
    obtain ⟨hfields, hm'⟩ := buildFields_madeOf last fields hs.2 hb ho
    have ht := hs.1 inherited own htaken hfields
    obtain ⟨rfl, hb'⟩ := hm'.define hdefine ht
    rw [MadeOf]
    exact ⟨ht, hb'⟩
  | .unknown data, key, field, b, b', t, _, hb, h => by
    simp only [build] at h
    obtain ⟨_, m, hm, ret⟩ := h.bind
    obtain ⟨rfl, rfl⟩ := ret.pure
    rw [hm.of_modify, MadeOf]
    exact ⟨rfl, hb⟩
  | .fault f, key, field, b, b', t, _, hb, h => by
    simp only [build] at h
    exact h.throw.elim

theorem buildAll_madeOf (last) : ∀ ss {key field b b' ts}, (∀ d ∈ Schema.definersAll ss, Keeps E d) →
      Holds E b.language → Returns (buildAll last key field ss) b ts b' →
      MadeOfAll E key field ss ts ∧ Holds E b'.language
  | [], key, field, b, b', ts, _, hb, h => by
    simp only [buildAll] at h
    obtain ⟨rfl, rfl⟩ := h.pure
    rw [MadeOfAll]
    exact ⟨rfl, hb⟩
  | s :: rest, key, field, b, b', ts, hs, hb, h => by
    simp only [buildAll] at h
    obtain ⟨t, m, ht, next⟩ := h.bind
    obtain ⟨us, m', hus, ret⟩ := next.bind
    obtain ⟨rfl, rfl⟩ := ret.pure
    rw [Schema.definersAll, forall_mem_append] at hs
    obtain ⟨hfirst, hm⟩ := build_madeOf last s hs.1 hb ht
    obtain ⟨hothers, hb'⟩ := buildAll_madeOf last rest hs.2 hm hus
    rw [MadeOfAll]
    exact ⟨⟨t, us, rfl, hfirst, hothers⟩, hb'⟩

theorem buildFields_madeOf (last : Option Nat) : ∀ fs {b b' gs},
    (∀ d ∈ Schema.definersIn fs, Keeps E d) → Holds E b.language →
      Returns (buildFields last fs) b gs b' → FieldsBuilt (MadeOf E) fs gs ∧ Holds E b'.language
  | [], b, b', gs, _, hb, h => by
    simp only [buildFields] at h
    obtain ⟨rfl, rfl⟩ := h.pure
    exact ⟨rfl, hb⟩
  | .field name key type :: rest, b, b', gs, hs, hb, h => by
    obtain ⟨t, m, n, others, ht, hothers, hn, rfl⟩ := field_returns h
    rw [Schema.definersIn, forall_mem_append] at hs
    obtain ⟨hmade, hm⟩ := build_madeOf last type hs.1 hb ht
    obtain ⟨hrest, hb'⟩ := buildFields_madeOf last rest hs.2 hm hothers
    exact ⟨⟨n, _, t, others, hn, rfl, hmade, hrest⟩, hb'⟩
  | .fault f :: rest, b, b', gs, _, hb, h => by
    simp only [buildFields] at h
    exact h.throw.elim
end

/-! ## All readings -/

/-- What is promised of the plain types that are listed. -/
def ListsPlain (E : Promise) : Prop := ∀ k symbols, E.Made (.str "PrimitiveType") (.enum k symbols) →
  ∀ s ∈ symbols, E.Made s (.base s)

theorem definePlain_holds : ∀ names {b b' u},
    (∀ s ∈ names, E.Made s (.base s)) → Holds E b.language →
    Returns (definePlain names) b u b' → Holds E b'.language
  | [], b, b', u, _, hb, h => by
    rw [h.pure.2]
    exact hb
  | name :: rest, b, b', u, hnames, hb, h => by
    obtain ⟨hname, hrest⟩ := forall_mem_cons.mp hnames
    obtain ⟨t, m, hdefine, hdefined⟩ := h.bind
    exact definePlain_holds rest hrest (hb.define hdefine hname).2 hdefined

theorem pass_holds (hs : ∀ d ∈ s.definers, Keeps E d) (hplain : ListsPlain E) {u}
    (hb : Holds E b.language) (h : Returns (pass last s) b u b') : Holds E b'.language := by
  obtain ⟨t, m, name, symbols, hbuild, hget, hentered⟩ := pass_cases h
  obtain ⟨_, hm⟩ := build_madeOf last s hs hb hbuild
  exact definePlain_holds symbols (hplain name symbols (hm.get? hget)) hm hentered

theorem ofSchema_holds (hs : ∀ d ∈ s.definers, Keeps E d) (hplain : ListsPlain E) {log}
    (h : ofSchema s = .ok (l, log)) : Holds E l := by
  obtain ⟨b₁, b₂, last, b₃, b₄, h₁, h₂, _, h₃, _, rfl, _⟩ := readings_cases h
  have hstart : Holds E start.language := nofun
  exact pass_holds hs hplain (pass_holds hs hplain (pass_holds hs hplain hstart h₁) h₂) h₃

end Language
end CwlService
