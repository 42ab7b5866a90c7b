import CwlService.Proofs.Node.Reordered
import CwlService.Proofs.Outcome
import CwlService.Proofs.Text.Split
import CwlService.Sample.Value

/-! # What sample values are

A sample of a type as documents write it is a value of that type, whatever numbers are drawn. -/
namespace CwlService.Sample

open Text (typeMarks IsBare)
open List

/-! ## Drawings -/

/-- A drawing that leaves the reader of linked files one of some readers, that has only faults of some
kind, and that gives only values of some kind. -/
def Meets {α : Type} (A : Fault → Prop) (P : Yaml.Reader → Prop) (x : Draw α) (Q : α → Prop) : Prop :=
  ∀ s : Supply, P s.readers.links →
    (P (x.run.run s).2.readers.links ∧ ∀ f, (x.run.run s).1 = .error f → A f) ∧
      ∀ a, (x.run.run s).1 = .ok a → Q a

/-- Any fault will do. -/
abbrev Yields {α : Type} (P : Yaml.Reader → Prop) (x : Draw α) (Q : α → Prop) : Prop := Meets (fun _ => True) P x Q

namespace Meets

variable {α β : Type} {A : Fault → Prop} {P : Yaml.Reader → Prop} {Q : α → Prop} {R : β → Prop}

theorem pure {a} (h : Q a) : Meets A P (Pure.pure a) Q := by
  intro s hs
  refine ⟨⟨hs, fun f hf => ?_⟩, fun b hb => ?_⟩
  · cases hf
  · cases hb
    exact h

theorem throw {f} (h : A f) : Meets A P (throw f : Draw α) Q := by
  intro s hs
  refine ⟨⟨hs, fun g hg => ?_⟩, fun b hb => ?_⟩
  · cases hg
    exact h
  · cases hb

theorem lift_of {e : Except Fault α} (h : ∀ f, e = .error f → A f) : Meets A P (liftM e) fun a => e = .ok a := by
  cases e with
  | error f => exact throw (h f rfl)
  | ok a => exact pure rfl

theorem lift (e : Except Fault α) : Yields P (liftM e) fun a => e = .ok a := lift_of fun _ _ => trivial

theorem bind {x} {f : α → Draw β} (hx : Meets A P x Q) (hf : ∀ a, Q a → Meets A P (f a) R) :
    Meets A P (x >>= f) R := by
  intro s hs
  obtain ⟨⟨hleft, hfaults⟩, hgives⟩ := hx s hs
  cases hrun : x.run.run s with
  | mk r t =>
    rw [hrun] at hleft hfaults hgives
    cases r with
    | error fault =>
      rw [run_bind_error hrun]
      exact throw (hfaults fault rfl) t hleft
    | ok a =>
      rw [run_bind hrun]
      exact hf a (hgives a rfl) t hleft

theorem weaken {A' : Fault → Prop} {Q' : α → Prop} {x} (hx : Meets A P x Q) (hA : ∀ f, A f → A' f)
    (h : ∀ a, Q a → Q' a) : Meets A' P x Q' := by
  intro s hs
  obtain ⟨⟨hleft, hfaults⟩, hgives⟩ := hx s hs
  exact ⟨⟨hleft, fun f hf => hA f (hfaults f hf)⟩, fun a ha => h a (hgives a ha)⟩

theorem imp {x} {Q' : α → Prop} (hx : Meets A P x Q) (h : ∀ a, Q a → Q' a) : Yields P x Q' :=
  hx.weaken (fun _ _ => trivial) h

theorem mapM {f : α → Draw β} {R : α → β → Prop} : ∀ {xs}, (∀ a ∈ xs, Meets A P (f a) (R a)) →
    Meets A P (xs.mapM f) fun ys => Forall₂ R xs ys
  | [], _ => .pure .nil
  | a :: rest, h => by
    rw [forall_mem_cons] at h
    rw [mapM_cons]
    exact .bind h.1 fun b hb => .bind (mapM h.2) fun bs hbs => .pure (.cons hb hbs)

theorem next : Meets A P next fun _ => True := by
  intro s hs
  refine ⟨⟨hs, fun f hf => ?_⟩, fun _ _ => trivial⟩
  cases hf

theorem withLinks {x} (h : ∀ r, P r → P (x.run.run r).2 ∧ ∀ a, (x.run.run r).1 = .ok a → Q a) :
    Yields P (withLinks x) Q := by
  intro s hs
  obtain ⟨hleft, hgives⟩ := h s.readers.links hs
  rw [Sample.withLinks, run_get_bind]
  cases hx : x.run.run s.readers.links with
  | mk r links =>
    rw [hx] at hleft hgives
    have hset : (set { s with readers.links := links } : Draw Unit).run.run s =
      (.ok (), { s with readers.links := links }) := rfl
    dsimp only
    rw [run_bind hset]
    cases r with
    | error f => exact throw trivial _ hleft
    | ok a => exact pure (hgives a rfl) _ hleft

/-- The reader of imported types is another one. -/
theorem withTypes (x : Document.Reads α) : Yields P (withTypes x) fun _ => True := by
  intro s hs
  rw [Sample.withTypes, run_get_bind]
  cases hx : x.run.run s.readers.types with
  | mk r types =>
    have hset : (set { s with readers.types := types } : Draw Unit).run.run s =
      (.ok (), { s with readers.types := types }) := rfl
    dsimp only
    rw [run_bind hset]
    cases r with
    | error f => exact throw trivial _ hs
    | ok a => exact pure trivial _ hs

end Meets

/-! ## Types as documents write them -/

def simpleTypes : List String :=
  ["null", "boolean", "int", "long", "float", "double", "string", "File", "Directory"]

/-- What kind of type a map says it is. -/
def kindOf (es : Node.Entries) : Option String := (es.field? "type").bind Node.text?

/-- The fields of a record, in a list or by their names. -/
def fieldsOf (es : Node.Entries) : Except Fault (List ListingEntry) :=
  (Listing.asMap ((es.field? "fields").getD .null) (.str "name")).2

/-- Types that are written with the names of simple types and of user types. -/
inductive IsType (types : Node.Entries) : Node → Prop where
  | named {s name mark : String} {styled : Bool} (hname : name ∈ simpleTypes ∨ (types.field? name).isSome = true)
    (hmark : mark ∈ typeMarks) (hs : s = name ++ mark) : IsType types (.text s styled)
  | union {items : Node.Items} (hsome : items ≠ []) (h : ∀ i ∈ items, IsType types i.2) : IsType types (.seq form items)
  | array {es : Node.Entries} (hkind : kindOf es = some "array") (hitems : es.field? "items" = some t)
    (h : IsType types t) : IsType types (.map form es)
  | enum {es : Node.Entries} (hkind : kindOf es = some "enum")
    (hsymbols : es.field? "symbols" = some (.seq form' symbols))
    (hsome : symbols ≠ []) : IsType types (.map form es)
  | record (hkind : kindOf es = some "record") (hfields : fieldsOf es = .ok fields)
    (h : ∀ f ∈ fields, IsType types f.value) : IsType types (.map form es)
  | port {es : Node.Entries} (htype : es.field? "type" = some t) (h : IsType types t) : IsType types (.map form es)

/-- User types have names of their own, without marks, and are types themselves. -/
structure Defines (types : Node.Entries) : Prop where
  bare : ∀ {name t}, types.field? name = some t → IsBare name
  own : ∀ {name t}, types.field? name = some t → name ∉ simpleTypes ++ ["array", "enum", "record"]
  isType : ∀ {name t}, types.field? name = some t → IsType types t

/-! ## Values of types -/

/-- A file: its size is that of its contents, and its names end in the same way. -/
structure IsFile (v : Node) : Prop where
  isFile : v.field? "class" = some (.str "File")
  size : ∃ contents : String, v.field? "contents" = some (.str contents) ∧ v.field? "size" = some (.num contents.length)
  names : ∃ root ext, v.field? "nameroot" = some root ∧ v.field? "nameext" = some (.str ext) ∧
    ∀ name ∈ ["path", "location", "basename"], ∃ s, v.field? name = some (.str s) ∧
      s.endsWith (root.shown ++ ext) = true

def IsSimple (name : String) (v : Node) : Prop :=
  match name with
  | "null" => v = .str "null"
  | "boolean" => ∃ b, v = .bool b
  | "int" | "long" => ∃ n, v = .num n
  | "float" | "double" => ∃ x, v = .float x false
  | "string" => ∃ s, v = .str s
  | "File" => IsFile v
  | "Directory" => v.field? "class" = some (.str "Directory")
  | _ => False

inductive Conforms (types : Node.Entries) : Node → Node → Prop where
  | simple (h : IsSimple name v) : Conforms types (.text name styled) v
  | user (h : types.field? name = some t) (hv : Conforms types t v) : Conforms types (.text name styled) v
  | optional (h : Conforms types (.text s styled) v) : Conforms types (.text (s ++ "?") styled) v
  | listed (h : Conforms types (listOf s) v) : Conforms types (.text (s ++ "[]") styled) v
  | union {items : Node.Items} (hi : i ∈ items) (h : Conforms types i.2 v) : Conforms types (.seq form items) v
  | array {es} (hkind : kindOf es = some "array") (hitems : es.field? "items" = some t)
      (hlength : vs.length = 4) (h : ∀ v ∈ vs, Conforms types t v) : Conforms types (.map form es) (.list vs)
  | enum {es} (hkind : kindOf es = some "enum")
      (hsymbols : es.field? "symbols" = some (.seq form' symbols)) (hi : i ∈ symbols) :
        Conforms types (.map form es) i.2
  | record {values} (hkind : kindOf es = some "record") (hfields : fieldsOf es = .ok fields)
      (hkeys : values.map (·.1) = fields.map (·.key))
      (h : ∀ p ∈ fields.zip values, Conforms types p.1.value p.2.2) :
    Conforms types (.map form es) (.dict values)
  | file (hkind : kindOf es = some "File") (h : IsFile v)
    (hmore : ∀ more ∈ v.field? "secondaryFiles", ∃ files, more = .list files ∧ ∀ f ∈ files, IsFile f) :
    Conforms types (.map form es) v
  | port {es} (hkind : kindOf es ≠ some "File") (htype : es.field? "type" = some t)
      (h : Conforms types t v) :
    Conforms types (.map form es) v

section Value

variable {P : Yaml.Reader → Prop}

theorem below_yields (count : Nat) : Meets (· ≠ .endless) P (below count) fun i => i < count := by
  unfold below
  split
  · exact .bind (Q := fun _ => False) (.throw nofun) fun _ h => h.elim
  · rename_i hcount
    exact .bind .next fun _ _ => .pure (Nat.mod_lt _ (Nat.pos_of_ne_zero (by simpa using hcount)))

theorem letters_yields (count) : Meets (· ≠ .endless) P (letters count) fun s => s.length = count := by
  refine .bind (.mapM (R := fun _ _ => True) fun _ _ => ?_) fun cs hcs => .pure ?_
  · exact .bind .next fun _ _ => .pure trivial
  · simp [← hcs.length_eq]

theorem file_yields (name) : Meets (· ≠ .endless) P (file name) fun main => ∀ more,
    IsFile (.record (main ++ more)) ∧
      Node.field? (.record (main ++ more)) "secondaryFiles" = Node.field? (.record more) "secondaryFiles" := by
  refine .bind (below_yields _) fun size _ => .bind (letters_yields _) fun contents hlength => .pure fun more => ?_
  have hends : ∀ front : String, (front ++ name.shown ++ ".ext").endsWith (name.shown ++ ".ext") = true :=
    fun front => Text.endsWith_iff.mpr ⟨front, String.append_assoc⟩
  refine ⟨⟨rfl, ⟨contents, rfl, by rw [hlength]; rfl⟩, name, ".ext", rfl, rfl, ?_⟩, rfl⟩
  simp only [forall_mem_cons]
  exact ⟨⟨_, rfl, hends _⟩, ⟨_, rfl, hends _⟩, ⟨_, rfl, by simpa using hends ""⟩, by simp⟩

theorem fileWith_yields (name type) : Meets (· ≠ .endless) P (fileWith name type) fun v =>
    IsFile v ∧ ∀ more ∈ v.field? "secondaryFiles", ∃ files, more = .list files ∧ ∀ f ∈ files, IsFile f := by
  have hfile : Meets (· ≠ .endless) P (return Node.record (← file name)) IsFile :=
    .bind (file_yields name) fun main hmain => .pure (by simpa using (hmain []).1)
  refine .bind (file_yields name) fun main hmain => ?_
  split
  · obtain ⟨hself, hnone⟩ := hmain []
    rw [append_nil] at hself hnone
    refine .pure ⟨hself, fun more hmore => ?_⟩
    rw [hnone] at hmore
    cases hmore
  · split
    · refine .bind (.mapM fun _ _ => hfile) fun files hfiles => .pure ?_
      obtain ⟨hself, hsome⟩ := hmain [("secondaryFiles", .list files)]
      refine ⟨hself, fun more hmore => ⟨files, ?_, fun f hf => ?_⟩⟩
      · rw [hsome] at hmore
        cases hmore
        rfl
      · obtain ⟨_, _, h⟩ := Node.exists_of_forall₂ hfiles.flip f hf
        exact h
    · exact .throw nofun

theorem joinName_yields (name : Node) (tail : String) :
    Meets (· ≠ .endless) P (liftM (joinName name tail)) fun _ => True := by
  refine (Meets.lift_of fun f hf => ?_).weaken (fun _ => id) fun _ _ => trivial
  unfold joinName at hf
  split at hf <;> cases hf
  rintro ⟨⟩

theorem fraction_yields : Meets (· ≠ .endless) P fraction fun _ => True := .bind .next fun _ _ => .pure trivial

theorem basic_yields (name : Node) (s : String) :
    Meets (· ≠ .endless) P (basic name (.str s)) fun v => s ∈ simpleTypes → IsSimple s v := by
  refine .bind (joinName_yields name _) fun stem _ => .bind (letters_yields 5) fun _ _ => ?_
  split <;> rename_i hs
  · cases hs
    exact .pure fun _ => rfl
  · cases hs
    exact .pure fun h => absurd h (by decide)
  · cases hs
    exact .bind (below_yields 2) fun _ _ => .pure fun _ => ⟨_, rfl⟩
  · cases hs
    exact .bind (below_yields 2001) fun _ _ => .pure fun _ => ⟨_, rfl⟩
  · cases hs
    exact .bind (below_yields 2001) fun _ _ => .pure fun _ => ⟨_, rfl⟩
  · cases hs
    exact .bind fraction_yields fun _ _ => .pure fun _ => ⟨_, rfl⟩
  · cases hs
    exact .bind fraction_yields fun _ _ => .pure fun _ => ⟨_, rfl⟩
  · cases hs
    exact .pure fun _ => ⟨_, rfl⟩
  · cases hs
    refine .bind (file_yields _) fun main hmain => .pure fun _ => ?_
    change IsFile (.record main)
    simpa using (hmain []).1
  · cases hs
    exact .pure fun _ => rfl
  · refine .pure fun h => ?_
    simp_all [simpleTypes, Node.text?]

theorem symbol_yields (symbols : Node) : Meets (· ≠ .endless) P (symbol symbols) fun v =>
    ∀ form items, symbols = .seq form items → ∃ i ∈ items, v = i.2 := by
  unfold symbol
  split
  · rename_i count hcount
    refine .bind (below_yields _) fun i hi => ?_
    split
    · refine .pure ?_
      rintro _ _ ⟨⟩
      cases hcount
      exact ⟨_, getElem_mem hi, by simp [hi]⟩
    · exact .pure nofun
    · exact .pure nofun
    · split
      · exact .pure nofun
      · exact .throw nofun
    · exact .throw nofun
  · exact .throw nofun

/-- What a sample is: a value of its type, or a list of four. -/
def IsSample (types : Node.Entries) (type : Node) (array : Bool) (v : Node) : Prop :=
  if array then ∃ vs, v = .list vs ∧ vs.length = 4 ∧ ∀ u ∈ vs, Conforms types type u else Conforms types type v

theorem isBare_of_named {types} (hd : Defines types) {name}
    (h : name ∈ simpleTypes ∨ (types.field? name).isSome = true) : IsBare name := by
  rcases h with hsimple | huser
  · have hall : ∀ n ∈ simpleTypes, n.endsWith "?" = false ∧ n.endsWith "[]" = false := by decide +kernel
    exact ⟨(hall name hsimple).1, (hall name hsimple).2⟩
  · obtain ⟨t, ht⟩ := Option.isSome_iff_exists.mp huser
    exact hd.bare ht

theorem IsType.not_reserved {types} (hd : Defines types) {n} (h : IsType types n) :
    ∀ kind ∈ ["array", "enum", "record"], n.text? ≠ some kind := by
  have hplain : ∀ kind ∈ ["array", "enum", "record"],
      Text.withoutEnd "?" kind = kind ∧ kind.endsWith "[]" = false ∧ kind ∉ simpleTypes := by decide +kernel
  rintro kind hkind hn
  obtain ⟨hrequired, hsingle, hsimple⟩ := hplain kind hkind
  cases h with
  | named hname hmark hs =>
    cases hn
    rcases Text.withoutEnd_mark (isBare_of_named hd hname) hmark with ⟨_, heq⟩ | ⟨_, heq⟩
    · rw [← hs, hrequired] at heq
      subst heq
      obtain ⟨t, ht⟩ := Option.isSome_iff_exists.mp (hname.resolve_left hsimple)
      exact hd.own ht (mem_append_right _ hkind)
    · rw [← hs, hrequired] at heq
      rw [heq, Text.endsWith_iff.mpr ⟨_, rfl⟩] at hsingle
      cases hsingle
  | _ => cases hn

/-- What a map that is a type holds, by what kind it says it is. -/
structure MapType (types : Node.Entries) (es : Node.Entries) (type : Node) : Prop where
  array : type.text? = some "array" → ∃ t, es.field? "items" = some t ∧ IsType types t
  enum : type.text? = some "enum" → ∃ form symbols, es.field? "symbols" = some (.seq form symbols)
  record : type.text? = some "record" → ∃ fields, fieldsOf es = .ok fields ∧ ∀ f ∈ fields, IsType types f.value
  port : (∀ kind ∈ ["array", "enum", "record"], type.text? ≠ some kind) → IsType types type

theorem IsType.mapType {types es : Node.Entries} (hd : Defines types) {form}
    (h : IsType types (.map form es)) {type} (htype : es.field? "type" = some type) : MapType types es type := by
  have hkindOf : kindOf es = type.text? := by rw [kindOf, htype]; rfl
  cases h with
  | array hkind hitems h =>
    rw [hkindOf] at hkind
    exact ⟨fun _ => ⟨_, hitems, h⟩, by simp [hkind], by simp [hkind], by simp [hkind]⟩
  | enum hkind hsymbols _ =>
    rw [hkindOf] at hkind
    exact ⟨by simp [hkind], fun _ => ⟨_, _, hsymbols⟩, by simp [hkind], by simp [hkind]⟩
  | record hkind hfields h =>
    rw [hkindOf] at hkind
    exact ⟨by simp [hkind], by simp [hkind], fun _ => ⟨_, hfields, h⟩, by simp [hkind]⟩
  | port htype' h =>
    cases htype.symm.trans htype'
    have hnot := h.not_reserved hd
    exact ⟨fun hk => absurd hk (hnot _ (by simp)), fun hk => absurd hk (hnot _ (by simp)),
      fun hk => absurd hk (hnot _ (by simp)), fun _ => h⟩

section

variable {types : Node.Entries} {depth : Nat}

/-- A name without its mark that a value may be missing is a name, or stands for a list. -/
theorem IsType.unmarked (hd : Defines types) {s styled} (h : IsType types (.text s styled)) :
    (itemName? (Text.withoutEnd "?" s) = none ∧
      (Text.withoutEnd "?" s ∈ simpleTypes ∨ (types.field? (Text.withoutEnd "?" s)).isSome = true) ∧
      ∀ v, Conforms types (.text (Text.withoutEnd "?" s) styled) v → Conforms types (.text s styled) v) ∨
    ∃ item, itemName? (Text.withoutEnd "?" s) = some item ∧ IsType types (listOf item) ∧
      ∀ v, Conforms types (listOf item) v → Conforms types (.text s styled) v := by
  cases h with
  | @named _ name mark _ hname hmark hs =>
    subst hs
    have hbare := isBare_of_named hd hname
    rcases Text.withoutEnd_mark hbare hmark with ⟨hmark, heq⟩ | ⟨hmark, heq⟩ <;> rw [heq]
    · refine .inl ⟨by simp [itemName?, hbare.single], hname, fun v hv => ?_⟩
      rcases hmark with rfl | rfl
      · rwa [String.append_empty]
      · exact .optional hv
    · refine .inr ⟨name, ?_, .array rfl rfl (.union (by simp) fun i hi => ?_), fun v hv => ?_⟩
      · rw [itemName?, if_pos (Text.endsWith_iff.mpr ⟨name, rfl⟩), Text.withoutEnd_append]
      · obtain rfl := mem_singleton.mp hi
        exact .named hname (by simp [typeMarks]) String.append_empty.symm
      · rcases hmark with rfl | rfl
        · exact .listed hv
        · have hboth : name ++ "[]?" = name ++ "[]" ++ "?" := by rw [String.append_assoc]; rfl
          rw [hboth]
          exact .optional (.listed hv)

/-- A drawing gives samples of a type, if it is one. -/
abbrev Draws (P : Yaml.Reader → Prop) (types : Node.Entries) (type : Node) (array : Bool) (x : Draw Node) : Prop :=
  Yields P x fun v => Defines types → IsType types type → IsSample types type array v

section

variable (ih : ∀ name type array, Draws P types type array (value types depth name type array)) (name : Node)

include ih

theorem name_draws
    (s : String) (styled : Bool) :
    Draws P types (.text s styled) false (value types (depth + 1) name (.text s styled) false) := by
  unfold value
  dsimp only
  split
  · rename_i item hitem
    refine (ih name (listOf item) false).imp fun v hv hd ht => ?_
    rcases ht.unmarked hd with ⟨hnone, _⟩ | ⟨item', hsome, hlist, hconforms⟩
    · cases hnone.symm.trans hitem
    · cases hsome.symm.trans hitem
      exact hconforms v (hv hd hlist)
  · rename_i hitem
    split
    · rename_i t htype
      refine (ih name t false).imp fun v hv hd ht => ?_
      rcases ht.unmarked hd with ⟨_, _, hconforms⟩ | ⟨item, hsome, _⟩
      · exact hconforms v (.user htype (hv hd (hd.isType htype)))
      · cases hsome.symm.trans hitem
    · rename_i hnone
      refine (basic_yields name _).imp fun v hv hd ht => ?_
      rcases ht.unmarked hd with ⟨_, hname, hconforms⟩ | ⟨item, hsome, _⟩
      · exact hconforms v (.simple (hv (hname.resolve_right (by simp [hnone]))))
      · cases hsome.symm.trans hitem

theorem map_draws
    (form : Form) (es : Node.Entries) :
    Draws P types (.map form es) false (value types (depth + 1) name (.map form es) false) := by
  unfold value
  dsimp only
  split
  · rename_i hnone
    refine .pure fun hd ht => ?_
    cases ht <;> simp_all [kindOf]
  · rename_i type htype
    have hkindOf : kindOf es = type.text? := by rw [kindOf, htype]; rfl
    split <;> rename_i hkind
    · refine (ih name _ true).imp fun v hv hd ht => ?_
      obtain ⟨t, hitems, hit⟩ := (ht.mapType hd htype).array hkind
      rw [hitems] at hv
      obtain ⟨vs, rfl, hlength, hvs⟩ := hv hd hit
      exact .array (hkindOf.trans hkind) hitems hlength hvs
    · refine (symbol_yields _).imp fun v hv hd ht => ?_
      obtain ⟨form', symbols, hsymbols⟩ := (ht.mapType hd htype).enum hkind
      obtain ⟨i, hi, rfl⟩ := hv form' symbols (by rw [hsymbols]; rfl)
      exact .enum (hkindOf.trans hkind) hsymbols hi
    · refine .bind (.lift _) fun fields hfields => ?_
      refine .bind (.mapM (R := fun f e => e.1 = f.key ∧
        (Defines types → IsType types f.value → Conforms types f.value e.2)) fun f _ => ?_) fun values hvalues => ?_
      · exact .bind (ih _ f.value false) fun v hv => .pure ⟨rfl, hv⟩
      · refine .pure fun hd ht => ?_
        obtain ⟨fields', hfields', hall⟩ := (ht.mapType hd htype).record hkind
        cases hfields.symm.trans hfields'
        refine .record (hkindOf.trans hkind) hfields ?_ fun p hp => ?_
        · have hsame : Forall₂ (fun (f : ListingEntry) (e : Node × Node) => e.1 = f.key) fields values :=
            hvalues.imp fun _ _ h => h.1
          exact forall₂_eq_eq_eq ▸ forall₂_map_left_iff.mpr (forall₂_map_right_iff.mpr hsame.flip)
        · exact (forall₂_zip hvalues hp).2 hd (hall _ (of_mem_zip hp).1)
    · exact (fileWith_yields name es).imp fun v hv hd ht => .file (hkindOf.trans hkind) hv.1 hv.2
    · refine (ih name type false).imp fun v hv hd ht =>
        .port (hkindOf ▸ hkind) htype (hv hd ((ht.mapType hd htype).port ?_))
      simp_all

end

end

theorem value_draws (types : Node.Entries) : ∀ depth name type array,
    Draws P types type array (value types depth name type array)
  | 0, _, _, _ => .throw trivial
  | depth + 1, name, type, true => by
    unfold value
    refine .bind (.mapM (R := fun _ v => Defines types → IsType types type → Conforms types type v) fun i _ => ?_)
      fun vs hvs => .pure fun hd ht => ⟨vs, rfl, ?_, fun v hv => ?_⟩
    · exact .bind (.lift _) fun _ _ => value_draws types depth _ type false
    · rw [← hvs.length_eq]
      rfl
    · obtain ⟨_, _, h⟩ := Node.exists_of_forall₂ hvs.flip v hv
      exact h hd ht
  | depth + 1, name, type, false => by
    cases type with
    | text s styled => exact name_draws (value_draws types depth) name s styled
    | map form es => exact map_draws (value_draws types depth) name form es
    | seq form items =>
      unfold value
      refine .bind ((below_yields _).imp fun _ => id) fun i hi =>
        (value_draws types depth name _ false).imp fun v hv hd ht => ?_
      cases ht with
      | union _ hall =>
        have hmem := get_mem items ⟨i, hi⟩
        have hitem : (items[i]?.map (·.2)).getD .null = (items.get ⟨i, hi⟩).2 := by simp [hi]
        rw [hitem] at hv
        exact .union hmem (hv hd (hall _ hmem))
    | _ => exact .pure nofun

/-- Whatever the numbers that are drawn, and whatever the name, a sample of a type is a value of that type. -/
theorem value_conforms {types : Node.Entries} (hd : Defines types) {type : Node} (ht : IsType types type) (depth : Nat)
    (name : Node) (s : Supply) {v : Node} (h : ((value types depth name type false).run.run s).1 = .ok v) :
    Conforms types type v :=
  (value_draws (P := fun _ => True) types depth name type false s trivial).2 v h hd ht

/-- A user type: a record with a list and a file. -/
def pair : Node := .record [("type", .str "record"), ("fields", .record [("a", .str "int[]?"), ("b", .str "File")])]

def pairs : Node.Entries := [(.str "pair", none, pair)]

theorem pairs_defines : Defines pairs := by
  have hpair : ∀ {name t}, pairs.field? name = some t → name = "pair" ∧ t = pair := by
    intro name t h
    by_cases hname : "pair" = name
    · subst hname
      cases h
      exact ⟨rfl, rfl⟩
    · simp [pairs, Node.Entries.field?, Node.isName, hname] at h
  refine ⟨fun h => ?_, fun h => ?_, fun h => ?_⟩ <;> obtain ⟨rfl, rfl⟩ := hpair h
  · exact ⟨by decide +kernel, by decide +kernel⟩
  · decide
  · refine .record rfl (show fieldsOf _ =
      .ok [⟨.str "a", .str "int[]?", none, 0⟩, ⟨.str "b", .str "File", none, 0⟩] from rfl) ?_
    simp only [forall_mem_cons]
    exact ⟨@IsType.named _ _ "int" "[]?" _ (.inl (by simp [simpleTypes])) (by simp [typeMarks]) (by decide),
      @IsType.named _ _ "File" "" _ (.inl (by simp [simpleTypes])) (by simp [typeMarks]) (by decide), by simp⟩

theorem value_conforms_pairs : ∃ v,
    ((value pairs 12 (.str "x") (.str "pair[]") false).run.run { state := 0 }).1 = .ok v ∧
      Conforms pairs (.str "pair[]") v := by
  have hok : ((value pairs 12 (.str "x") (.str "pair[]") false).run.run { state := 0 }).1.isOk = true := by
    decide +kernel
  obtain ⟨v, hv⟩ := exists_of_isOk hok
  have htype : IsType pairs (.str "pair[]") :=
    @IsType.named _ _ "pair" "[]" _ (.inr rfl) (by simp [typeMarks]) (by decide)
  exact ⟨v, hv, value_conforms pairs_defines htype 12 (.str "x") { state := 0 } hv⟩

end Value

end CwlService.Sample
