import CwlService.Proofs.Analysis.Findings
import CwlService.Proofs.Workspace.Links

/-! # The names of the types that a process defines

The types that a process defines can be told exactly if each of them can be named. Their names are
then those that the definitions carry in the process, and those that they carry in their files,
after the paths of the files. -/
namespace CwlService

open List

namespace UserTypes

open Analysis (importedName)

/-- The path of the file in which a definition stands, if it stands in one. -/
def importOf : Node → Option Node
  | .map _ entries => imported? entries
  | _ => none

/-- The items of a list; nothing else has any. -/
def itemsOf : Node → Node.Items
  | .seq _ items => items
  | _ => []

/-- The definitions that a process lists. -/
def typeItems (process : Node) : Node.Items :=
  itemsOf ((listed ((process.field? "requirements").getD .null)).toOption.getD .null)

section

variable (w : Workspace) (doc : Node) (r : Yaml.Reader)

/-- The data of the file in which a definition stands. -/
def fileData (path : Node) : Except Fault Node := ((load w doc path).run.run r).1.map (·.2)

/-- The name of a definition that stands in a file. -/
def importedNames (path : Node) : List String := importedName path ((fileData w doc r path).toOption.getD .null)

/-- The data that a definition has by its link. -/
def linkData (path : Node) : Except Fault Node := ((w.followNode doc path none).run.run r).1.map (·.1.node)

/-- The name that a definition has by its link. -/
def linkNames (path : Node) : List String := importedName path ((linkData w doc r path).toOption.getD .null)

/-- The name that a definition is known by, if it has one. -/
def nameOf (n : Node) : Option Node :=
  match n with
  | .map _ own =>
    match imported? own with
    | some path => (importedNames w doc r path).head?.map .str
    | none => (Node.Entries.field? own "name").filter fun name => !name.isNull
  | _ => none

/-- A definition can be named, or has no name: in a file that can be read its name is a text, and in
the process itself its name can be a key. -/
def Nameable (n : Node) : Prop :=
  match n with
  | .map _ own =>
    match imported? own with
    | some path => ∃ data, fileData w doc r path = .ok data ∧ ∀ name, data.field? "name" =
      some name → name.isText = true
    | none => ∀ name, Node.Entries.field? own "name" = some name → name.isKey = true
  | _ => True

end

/-! ## Reading files -/

/-- Work with a reader that gives the same with each of some readers, and leaves one of them. -/
def Steadily {α : Type} (P : Yaml.Reader → Prop) (x : Document.Reads α) : Prop :=
  ∀ r r', P r → P r' → (x.run.run r').1 = (x.run.run r).1 ∧ P (x.run.run r').2

variable {r : Yaml.Reader}

namespace Steadily

variable {α β : Type} {P : Yaml.Reader → Prop}

variable {x : Document.Reads α} {f : α → Document.Reads β}

theorem of_unread {e} (h : ∀ r, x.run.run r = (e, r)) : Steadily P x := by
  intro r r' _ hr'
  rw [h, h]
  exact ⟨rfl, hr'⟩

theorem pure (a : α) : Steadily P (Pure.pure a) := of_unread fun _ => rfl

theorem throw (f : Fault) : Steadily P (throw f : Document.Reads α) := of_unread fun _ => rfl

theorem bind (hx : Steadily P x) (hf : ∀ a, (∃ r, P r ∧ (x.run.run r).1 = .ok a) → Steadily P (f a)) :
    Steadily P (x >>= f) := by
  intro r r' hr hr'
  obtain ⟨hsame, hleft'⟩ := hx r r' hr hr'
  have hleft := (hx r r hr hr).2
  cases hrun : x.run.run r with
  | mk e s =>
    cases hrun' : x.run.run r' with
    | mk e' s' =>
      rw [hrun, hrun'] at hsame
      rw [hrun] at hleft
      rw [hrun'] at hleft'
      cases show e' = e from hsame
      cases e with
      | error fault =>
        rw [run_bind_error hrun, run_bind_error hrun']
        exact ⟨rfl, hleft'⟩
      | ok a =>
        rw [run_bind hrun, run_bind hrun']
        exact hf a ⟨r, hr, by rw [hrun]⟩ s s' hleft hleft'

theorem run_bind_eq (hx : Steadily P x) (hf : ∀ a, Steadily P (f a)) (hr : P r) :
    ((x >>= f).run.run r).1 = (x.run.run r).1 >>= fun a => ((f a).run.run r).1 := by
  have hleft := (hx r r hr hr).2
  refine run_bind_cases (P := fun p => p.1 = _) (fun e s hrun => ?_) fun a s hrun => ?_
  · rw [hrun]
    rfl
  · rw [hrun] at hleft ⊢
    exact (hf a r s hr hleft).1

theorem run_foldlM_eq {f : β → α → Document.Reads β} (hf : ∀ b a, Steadily P (f b a)) (hr : P r)
    (xs : List α) (b) : Steadily P (xs.foldlM f b) ∧
      ((xs.foldlM f b).run.run r).1 = xs.foldlM (fun b a => ((f b a).run.run r).1) b := by
  induction xs generalizing b with
  | nil => exact ⟨.pure b, rfl⟩
  | cons a xs ih =>
    rw [foldlM_cons, foldlM_cons]
    refine ⟨.bind (hf b a) fun b' _ => (ih b').1, ?_⟩
    rw [run_bind_eq (hf b a) (fun b' => (ih b').1) hr]
    congr 1
    funext b'
    exact (ih b').2

end Steadily

theorem load_run (w : Workspace) (doc path : Node) (r : Yaml.Reader) : (load w doc path).run.run r =
    match path.text? with
    | none => (.error .wrongKind, r)
    | some target =>
      match w.resolve doc target >>= w.find with
      | .error f => (.error f, r)
      | .ok (.file text) =>
        let read := (Document.readOr (.map .plain []) (Text.newlinesText text)).run.run r
        (read.1.map fun n => (target, n), read.2)
      | .ok _ => (.ok (target, .map .plain []), r) := by
  unfold load
  cases path.text? with
  | none => rfl
  | some target =>
    dsimp only
    cases w.resolve doc target with
    | error f => rfl
    | ok p =>
      rw [run_lift_bind]
      change _ = match w.find p with | .error f => _ | .ok (.file text) => _ | .ok _ => _
      cases w.find p with
      | error f => rfl
      | ok found =>
        rw [run_lift_bind]
        cases found with
        | file text =>
          dsimp only
          exact run_map _ _ r
        | _ => rfl

section

variable {w : Workspace}

variable {target : String} {s : Yaml.Reader} {doc n path : Node} {own : Node.Entries}

theorem text_of_load (h : (load w doc path).run.run r = (.ok (target, n), s)) : path.text? = some target := by
  rw [load_run] at h
  cases htext : path.text? with
  | none => rw [htext] at h; cases h
  | some t =>
    rw [htext] at h
    dsimp only at h
    split at h
    · cases h
    · rename_i text _
      obtain ⟨m, _, hm⟩ := map_eq_ok (Prod.mk.inj h).1
      cases hm
      rfl
    · cases h
      rfl

/-- Whether a link is the path of a file. -/
def isByPath (path : Node) : Bool := path.text?.any fun target => Uri.hasScheme? target == some false

/-- A definition in a file that is named by its path has the same name by its link. -/
theorem linkNames_eq_importedNames (doc : Node) (hpath : isByPath path = true) (r : Yaml.Reader) :
    linkNames w doc r path = importedNames w doc r path := by
  cases path with
  | text target styled =>
    have hscheme : Uri.hasScheme? target = some false := by simpa [isByPath, Node.text?] using hpath
    have hlink : linkData w doc r (.text target styled) = ((w.follow doc target none).run.run r).1.map (·.1.node) := rfl
    rw [linkNames, hlink, Workspace.follow_node w doc hscheme, importedNames, fileData, load_run]
    simp only [Node.text?]
    cases w.resolve doc target >>= w.find with
    | error f => rfl
    | ok found =>
      cases found with
      | file text =>
        simp only [Workspace.readLinked_run, Workspace.readOr_run]
        -- a file that is wrong at a place counts as having nothing here and as an empty map there
        cases ((Yaml.Reader.load (Text.newlinesText text)).run.run r).1 with
        | ok n => rfl
        | error f =>
          cases f with
          | problem p =>
            simp only [Workspace.judged]
            split <;> rfl
          | _ => rfl
      | _ => rfl
  | _ => cases hpath

/-! ## Naming one definition -/

theorem named_inline (doc : Node) (himport : imported? own = none) (form : Form) (r : Yaml.Reader) :
    (named w doc own form).run.run r =
      (match (own.field? "name").getD .null with
        | .null => .ok none
        | name => if name.isKey then .ok (some (name, .map form (own.eraseField "name")))
          else .error .wrongKind, r) := by
  unfold named
  rw [himport]
  dsimp only
  generalize (own.field? "name").getD .null = name
  cases name <;> rfl

theorem named_import (himport : imported? own = some path) (form)
    (hload : (load w doc path).run.run r = (.ok (target, n), s)) : (named w doc own form).run.run r =
      (match n with
        | .map m data =>
          match Node.Entries.field? data "name" with
          | none => .ok none
          | some (.text name _) =>
            .ok (some (.str (target ++ "#" ++ name), .map m (Node.Entries.eraseField data "name")))
          | some _ => .error .wrongKind
        | _ => .ok none, s) := by
  unfold named
  rw [himport]
  dsimp only
  rw [run_bind hload]
  cases n with
  | map m data =>
    dsimp only
    cases Node.Entries.field? data "name" with
    | none => rfl
    | some name => cases name <;> rfl
  | _ => rfl

theorem named_run (doc) (own : Node.Entries) (form r) :
    GivesIf (Nameable w doc r (.map form own)) (fun v => v.map (·.1) = nameOf w doc r (.map form own))
      ((named w doc own form).run.run r).1 := by
  cases himport : imported? own with
  | none =>
    rw [named_inline doc himport form, Nameable, nameOf, himport]
    dsimp only
    cases own.field? "name" with
    | none => exact ⟨by simp [Except.isOk, Except.toBool], .pure rfl⟩
    | some name =>
      rw [Option.filter_some]
      cases name <;> constructor <;> simp [Gives, Node.isKey, Node.isNull, Except.isOk, Except.toBool]
  | some path =>
    rw [Nameable, nameOf, himport]
    dsimp only
    rw [importedNames, fileData]
    cases hload : (load w doc path).run.run r with
    | mk e s =>
      cases e with
      | error f =>
        have herror : ((named w doc own form).run.run r).1 = .error f := by
          unfold named
          rw [himport]
          dsimp only
          rw [run_bind_error hload]
        rw [herror]
        exact ⟨⟨fun h => (by cases h), by rintro ⟨_, ⟨⟩, _⟩⟩, .throw f⟩
      | ok loaded =>
        obtain ⟨target, n⟩ := loaded
        have htext : path.text? = some target := text_of_load hload
        rw [named_import himport form hload]
        simp only [Except.map, Except.toOption, Option.getD_some, Except.ok.injEq, exists_eq_left']
        cases n with
        | map m data =>
          simp only [importedName, Node.field?, htext]
          cases Node.Entries.field? data "name" with
          | none => constructor <;> simp [Gives, Except.isOk, Except.toBool]
          | some name => cases name <;> constructor <;> simp [Gives, Node.isText, Except.isOk, Except.toBool]
        | _ => constructor <;> simp [Gives, importedName, Node.field?, Except.isOk, Except.toBool]

end

/-! ## All definitions -/

/-- Adds a definition to those before it, if it has a name. -/
def addType (w : Workspace) (doc : Node) (types : Node.Entries) (n : Node) : Document.Reads Node.Entries := do
  match n with
  | .map form own =>
    match ← named w doc own form with
    | some (name, type) => pure (types.put name type)
    | none => pure types
  | _ => pure types

/-- Entries have the keys of others, and a name if there is one. -/
def AddsKey (types : Node.Entries) (name : Option Node) (types' : Node.Entries) : Prop := ∀ k,
  (types'.any fun e => e.1.same k) = true ↔
    (types.any fun e => e.1.same k) = true ∨ ∃ n, name = some n ∧ n.same k = true

theorem AddsKey.none (types : Node.Entries) : AddsKey types .none types := fun k => by simp

section

variable {w : Workspace} {P : Yaml.Reader → Prop} (hw : w.Steady P)

include hw

/-- A file that is imported has the same data whatever was read before. -/
theorem load_steadily (doc path : Node) : Steadily P (load w doc path) := by
  intro r r' hr hr'
  rw [load_run, load_run]
  cases path.text? with
  | none => exact ⟨rfl, hr'⟩
  | some target =>
    dsimp only
    cases hfound : w.resolve doc target >>= w.find with
    | error f => exact ⟨rfl, hr'⟩
    | ok found =>
      cases found with
      | file text =>
        obtain ⟨p, _, hfind⟩ := bind_eq_ok hfound
        obtain ⟨hsame, hleft⟩ := hw.linked _ (Workspace.text_linkable hfind) r r' hr hr'
        dsimp only
        rw [Workspace.readOr_run, Workspace.readOr_run, hsame]
        exact ⟨rfl, hleft⟩
      | _ => exact ⟨rfl, hr'⟩

theorem named_steadily (doc own form) : Steadily P (named w doc own form) := by
  cases himport : imported? own with
  | none => exact .of_unread (named_inline doc himport form)
  | some path =>
    unfold named
    rw [himport]
    refine .bind (load_steadily hw doc path) fun loaded _ => ?_
    obtain ⟨target, n⟩ := loaded
    dsimp only
    split
    · split
      · exact .pure _
      · exact .pure _
      · exact .throw _
    · exact .pure _

theorem addType_steadily (doc types n) : Steadily P (addType w doc types n) := by
  cases n with
  | map form own =>
    refine .bind (named_steadily hw doc own form) fun v _ => ?_
    cases v with
    | none => exact .pure _
    | some v => exact .pure _
  | _ => exact .pure _

theorem addType_run (doc types n) (hr : P r) :
    GivesIf (Nameable w doc r n) (AddsKey types (nameOf w doc r n)) ((addType w doc types n).run.run r).1 := by
  cases n with
  | map form own =>
    have hnamed := @named_run w doc own form r
    have hvalue : ((addType w doc types (.map form own)).run.run r).1 =
        ((named w doc own form).run.run r).1 >>= fun v => .ok (match v with
          | some (name, type) => types.put name type
          | .none => types) := by
      refine ((named_steadily hw doc own form).run_bind_eq (fun v => ?_) hr).trans ?_
      · cases v <;> exact .pure _
      · congr 1
        funext v
        cases v <;> rfl
    rw [hvalue]
    refine ⟨?_, hnamed.gives.bind fun v hv => .pure ?_⟩
    · rw [← hnamed.isOk_iff]
      cases ((named w doc own form).run.run r).1 <;> rfl
    · rw [← hv]
      cases v with
      | none => exact .none types
      | some v =>
        intro k
        simp only [Node.any_same_put, Option.map_some, Option.some.injEq, exists_eq_left']
  | _ => exact ⟨⟨fun _ => trivial, fun _ => rfl⟩, .pure (.none types)⟩

theorem addTypes_run (doc) (hr : P r) (items : Node.Items) (types) :
    GivesIf (∀ i ∈ items, Nameable w doc r i.2)
      (fun types' => ∀ k, (types'.any fun e => e.1.same k) = true ↔ (types.any fun e => e.1.same k) = true ∨
        ∃ i ∈ items, ∃ n, nameOf w doc r i.2 = some n ∧ n.same k = true)
      (items.foldlM (fun types i => ((addType w doc types i.2).run.run r).1) types) := by
  induction items generalizing types with
  | nil => exact ⟨by simp [Except.isOk, Except.toBool, pure, Except.pure], .pure (by simp)⟩
  | cons i rest ih =>
    rw [foldlM_cons]
    have hboth := (addType_run hw doc types i.2 hr).bind fun types' _ => ⟨(ih types').isOk_iff, .any _⟩
    refine ⟨by rw [hboth.isOk_iff, forall_mem_cons], ?_⟩
    refine (addType_run hw doc types i.2 hr).gives.bind fun types' hkeys => ?_
    intro all hall k
    rw [(ih types').gives all hall k, hkeys k, or_assoc]
    simp

/-- The types that a process defines can be told exactly if their list can be and each of them can be
named, and then they have the names of the definitions. -/
theorem of_run (doc : Node) (form : Form) (es : Node.Entries) (hr : P r) :
    GivesIf ((listed ((es.field? "requirements").getD .null)).isOk = true ∧
        ∀ i ∈ typeItems (.map form es), Nameable w doc r i.2)
      (fun types => ∀ k, (types.any fun e => e.1.same k) = true ↔
        ∃ i ∈ typeItems (.map form es), ∃ n, nameOf w doc r i.2 = some n ∧ n.same k = true)
      ((of w doc (.map form es)).run.run r).1 := by
  have hitems : typeItems (.map form es) =
    itemsOf ((listed ((es.field? "requirements").getD .null)).toOption.getD .null) := rfl
  rw [hitems]
  unfold of
  dsimp only
  cases listed ((es.field? "requirements").getD .null) with
  | error f => exact ⟨⟨fun h => (by cases h), fun h => (by cases h.1)⟩, .throw f⟩
  | ok n =>
    rw [run_lift_bind]
    cases n with
    | seq form items =>
      have hfold := (Steadily.run_foldlM_eq (fun types (i : Option Place × Node) =>
        addType_steadily hw doc types i.2) hr items []).2
      have htypes := addTypes_run hw doc hr items []
      rw [← hfold] at htypes
      refine ⟨htypes.isOk_iff.trans (by simp [itemsOf, Except.toOption, Except.isOk, Except.toBool]), ?_⟩
      intro types h k
      simpa [itemsOf, Except.toOption] using htypes.gives types h k
    | _ => exact ⟨⟨fun _ => ⟨rfl, fun _ hi => absurd hi not_mem_nil⟩, fun _ => rfl⟩,
      .pure fun k => by simp [itemsOf, Except.toOption]⟩

end

end UserTypes
end CwlService
