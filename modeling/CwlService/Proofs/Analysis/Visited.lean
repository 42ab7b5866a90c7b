import CwlService.Proofs.Analysis.Steps

/-! # What a way that comes to its end has visited

A way through a document that comes to its end has visited all that is below where it began. So
whatever a visit needs in order to come to its end was there. -/
namespace CwlService.Analysis

open List

/-! ## What a part of the way needs -/

/-- A part of the way comes to an end only under a condition. -/
def Needs {α : Type} (c : Prop) (x : Walk α) : Prop := ∀ s v s', Ends x s v s' → c

namespace Needs

variable {α β : Type} {c : Prop} {x : Walk α}

variable {y : α → Walk β} {xs : List α}

theorem left (h : Needs c x) : Needs c (x >>= y) := by
  intro s v s'' hends
  obtain ⟨a, s', hx, _⟩ := hends.bind
  exact h s a s' hx

theorem right (h : ∀ a, Needs c (y a)) : Needs c (x >>= y) := by
  intro s v s'' hends
  obtain ⟨a, s', _, hy⟩ := hends.bind
  exact h a s' v s'' hy

theorem lift {e : Except Fault α} (h : ∀ a, e = .ok a → Needs c (y a)) : Needs c (liftM e >>= y) := by
  intro s v s'' hends
  obtain ⟨a, s', hx, hy⟩ := hends.bind
  exact h a hx.lift.1 s' v s'' hy

theorem reported {r} (h : ∀ a, r.2 = .ok a → Needs c (y a)) :
    Needs c (Walk.reported r >>= y) := by
  intro s v s'' hends
  obtain ⟨a, s', hx, hy⟩ := hends.bind
  obtain ⟨_, s₁, _, hr⟩ := Ends.bind hx
  exact h a hr.lift.1 s' v s'' hy

theorem ite {p : Prop} [Decidable p] {y} (hx : p → Needs c x) (hy : ¬p → Needs c y) :
    Needs c (if p then x else y) := by
  split
  · exact hx ‹_›
  · exact hy ‹_›

theorem discarded (h : Needs c x) : Needs c (discard x) := by
  intro s v s' hends
  obtain ⟨a, hx⟩ := Ends.discard hends
  exact h s a s' hx

theorem foldlM {f : β → α → Walk β} {a} (ha : a ∈ xs) (h : ∀ b, Needs c (f b a)) (b : β) :
    Needs c (xs.foldlM f b) := by
  induction xs generalizing b with
  | nil => cases ha
  | cons x xs ih =>
    rw [foldlM_cons]
    rcases mem_cons.mp ha with rfl | ha
    · exact .left (h b)
    · exact .right (ih ha)

theorem forM {f : α → Walk Unit} {a} (ha : a ∈ xs) (h : Needs c (f a)) : Needs c (xs.forM f) := by
  induction xs with
  | nil => cases ha
  | cons x xs ih =>
    have hcons : (x :: xs).forM f = f x >>= fun _ => xs.forM f := rfl
    rw [hcons]
    rcases mem_cons.mp ha with rfl | ha
    · exact .left h
    · exact .right fun _ => ih ha

end Needs

/-! ## Visits below -/

/-- A visit of a node, taken for something, comes to an end. -/
def Visited (visit : Visit) (m : Meaning) (node : Node) : Prop :=
  ∃ ctx map key value s v s', Ends (visit m node ctx map key value) s v s'

/-- Fields that are taken for what their types allow, in every record. -/
def plainFields : List String := ["requirements", "types"]

section Visited

variable {env : Setting} {visit : Visit} {c : Prop}

variable {name : String} {required : Bool} {fields : Fields} {child record : Node} {form : Form}
  {es : Node.Entries} {depth : Nat}

variable {types : List CwlType}

theorem fieldMeaning_plain (hname : name ∈ plainFields) (record : Node)
    (hfield : fields.get? name = some (required, types)) (child : Node) (key : Option Span) :
    fieldMeaning env record fields name child key =
      (do return some (← env.meaning ⟨child, types, some (.str name), none⟩)) := by
  simp only [plainFields, mem_cons, not_mem_nil, or_false] at hname
  rcases hname with rfl | rfl <;> simp [fieldMeaning, hfield]

theorem needs_field (hname : name ∈ plainFields)
    (hfield : fields.get? name = some (required, types))
    (hmeaning : ∀ m, env.meaning ⟨child, types, some (.str name), none⟩ = .ok m → Visited visit m child → c)
    (styled node ctx map key value named) :
    Needs c (visitField env visit record fields node ctx map key value named (.text name styled, child)) := by
  refine .right fun spans => .right fun _ => ?_
  rw [entryMeaning, fieldMeaning_plain hname record hfield, bind_assoc]
  refine .lift fun m hm => ?_
  rw [pure_bind]
  exact .left fun s v s' h => hmeaning m hm ⟨_, _, _, _, s, v, s', h⟩

theorem needs_record {e} (he : e ∈ es) (h : ∀ ctx map key value named,
    Needs c (visitField env visit record fields (.map form es) ctx map key value named (e.1, e.2.2)))
    (ctx map key value) :
    Needs c (visitRecord env visit record fields (.map form es) ctx map key value) := by
  have hmem : (e.1, e.2.2) ∈ visitOrder (es.map fun e => (e.1, e.2.2)) :=
    (visitOrder_perm _).mem_iff.mpr (mem_map_of_mem he)
  exact .right fun here => .left (.discarded (.foldlM hmem (h here map key value) []))

theorem visited_field {documented}
    (h : Visited (visitTo env (depth + 1)) (.typed (.record record documented fields)) (.map form es))
    (hname : name ∈ plainFields) (hfield : fields.get? name = some (required, types))
    (hchild : es.field? name = some child) :
    ∃ m, env.meaning ⟨child, types, some (.str name), none⟩ = .ok m ∧ Visited (visitTo env depth) m child := by
  obtain ⟨ctx, map, key, value, s, v, s', hends⟩ := h
  obtain ⟨⟨k, places, _⟩, he, hkey, rfl⟩ := Node.field?_eq_some hchild
  obtain ⟨styled, rfl⟩ := Node.isName_iff.mp hkey
  refine needs_record he (fun ctx map key value named => ?_) ctx map key value s v s' hends
  exact needs_field hname hfield (fun m hm hvisited => ⟨m, hm, hvisited⟩) styled _ ctx map key value named

/-- An entry of a listing is taken for something and is visited, unless it is an unknown
requirement. -/
def EntryVisited (env : Setting) (visit : Visit) (types : List CwlType) (mapKey : MapKey) (l : Listing)
    (e : ListingEntry) : Prop := ∃ m,
  env.meaning ⟨e.value, types, if l.form == .map then some e.key else none,
    if l.form == .map then some mapKey else none⟩ = .ok m ∧ (isUnknown m = false → Visited visit m e.value)

theorem needs_entry (name types mapKey ctx l e) :
    Needs (EntryVisited env visit types mapKey l e) (visitEntry env visit name types mapKey ctx l e) := by
  unfold visitEntry
  refine .lift fun m hm => ?_
  cases hunknown : isUnknown m with
  | true => exact fun _ _ _ _ => ⟨m, hm, fun h => by rw [hunknown] at h; cases h⟩
  | false =>
    have hvalue : ∀ here, Needs (EntryVisited env visit types mapKey l e)
      (visitValue visit name types mapKey l e m here) := by
      intro here
      rw [visitValue, hunknown, Bool.and_false]
      refine .right fun _ => .right fun _ => .discarded fun s v s' h => ?_
      exact ⟨m, hm, fun _ => ⟨_, _, _, _, s, v, s', h⟩⟩
    exact .left (.ite (fun _ => .right fun _ => .left (hvalue _)) fun _ => hvalue _)

theorem visited_entry {name mapKey node}
    (h : Visited (visitTo env (depth + 1)) (.typed (.listOrMap name types mapKey)) node) :
    ∃ l, (Listing.of node mapKey.subject).2 = .ok l ∧
      ∀ e ∈ l.entries, EntryVisited env (visitTo env depth) types mapKey l e := by
  obtain ⟨ctx, map, key, value, s, v, s', hends⟩ := h
  refine Needs.reported (fun l hl s v s' hends => ⟨l, hl, fun e he => ?_⟩) s v s' hends
  refine Needs.right (fun here => .right fun _ => .left (.forM he ?_)) s v s' hends
  exact needs_entry name types mapKey here l e

theorem visited_item {name} {items : Node.Items}
    (h : Visited (visitTo env (depth + 1)) (.typed (.array name types)) (.seq form items)) {i}
    (hi : i ∈ items) : ∃ m, env.meaning ⟨i.2, types, none, none⟩ = .ok m := by
  obtain ⟨ctx, map, key, value, s, v, s', hends⟩ := h
  obtain ⟨n, hn⟩ := mem_iff_getElem?.mp hi
  have hmem : (i, n) ∈ items.zipIdx := mk_mem_zipIdx_iff_getElem?.mpr hn
  refine Needs.lift (fun parts hparts => ?_) s v s' hends
  cases hparts
  refine .foldlM (mem_map_of_mem hmem) (fun ctx => ?_) ctx
  exact .lift fun m hm _ _ _ _ => ⟨m, hm⟩

end Visited

end CwlService.Analysis
