import CwlService.Proofs.Language.Inference
import CwlService.Proofs.Node.Relisted

/-! # What reordered data is taken for

What a node is taken for depends on its kind, on which keys it has, and on what it names as
its class; a reordered node is taken for the same. Only a link to a collection, which cannot
be followed, leads to another one. -/
namespace CwlService

open Node (AllMaps TextKeys)

/-- The same meanings, or links that cannot be followed. -/
inductive Meaning.Alike : Meaning → Meaning → Prop where
  | same (m : Meaning) : Meaning.Alike m m
  | file {target target' : Node} {extension} (h : target.isKey = false) (h' : target'.isKey = false) :
      Meaning.Alike (.linkedFile target extension) (.linkedFile target' extension)
  | type {target target' : Node} (h : target.isKey = false) (h' : target'.isKey = false) :
      Meaning.Alike (.linkedType target) (.linkedType target')

theorem Meaning.Alike.label_eq {m m' : Meaning} (h : m.Alike m') : m.label = m'.label := by
  cases h <;> rfl

/-- Verdicts of the same fit with meanings that are alike. -/
structure Verdict.Alike (v v' : Verdict) : Prop where
  meaning : v.meaning.Alike v'.meaning
  fit : v.fit = v'.fit

theorem Verdict.Alike.refl (v : Verdict) : v.Alike v := ⟨.same _, rfl⟩

section

variable {node node' : Node} (h : Node.Reordered node node')
  (hkeys : ∀ {form es}, node = .map form es → TextKeys es) (hasKey : Bool) (map : Option MapKey)

include h hkeys

theorem CwlType.checkRecord_alike (name : Node) (fields : Fields) (self : CwlType) :
    SameOutcome Verdict.Alike (checkRecord name fields self node hasKey map)
      (checkRecord name fields self node' hasKey map) := by
  cases node with
  | map form es =>
    obtain ⟨es', rfl, hes⟩ := h.map_left
    have himport := hes.field?_rel (hkeys rfl) "$import"
    have hhas : ∀ f, Node.Entries.hasField es f = Node.Entries.hasField es' f :=
      fun f => hes.any_eq fun _ _ he => by rw [he.key]
    unfold checkRecord
    dsimp only
    generalize Node.Entries.field? es "$import" = target,
      Node.Entries.field? es' "$import" = target' at himport
    cases himport with
    | none =>
      simp only [hhas]
      rw [hes.any_eq]
      · exact .refl Verdict.Alike.refl _
      · intro e e' he
        rw [he.key]
    | @some target target' htarget =>
      refine .ok ⟨?_, rfl⟩
      cases hkey : target.isKey with
      | true =>
        rw [htarget.eq_of_isKey hkey]
        exact .same _
      | false =>
        have hkey' : target'.isKey = false := htarget.isKey_eq ▸ hkey
        simp only [Verdict.yes]
        split
        · exact .type hkey hkey'
        · exact .file hkey hkey'
  | seq form items =>
    obtain ⟨items', rfl, _⟩ := h.seq_left
    exact .refl Verdict.Alike.refl _
  | _ =>
    cases h
    exact .refl Verdict.Alike.refl _

theorem CwlType.check?_alike (self : CwlType) :
    SameOutcome (Option.Rel Verdict.Alike) (self.check? node hasKey map) (self.check? node' hasKey map) := by
  have hrefl : ∀ v? : Option Verdict, Option.Rel Verdict.Alike v? v? := by
    intro v?
    cases v? with
    | none => exact .none
    | some v => exact .some (.refl v)
  cases self with
  | record name documented fields =>
    exact (checkRecord_alike h hkeys hasKey map name fields _).map fun _ _ hv => .some hv
  | _ =>
    cases node with
    | map form es =>
      obtain ⟨es', rfl, _⟩ := h.map_left
      exact .refl hrefl _
    | seq form items =>
      obtain ⟨items', rfl, _⟩ := h.seq_left
      exact .refl hrefl _
    | _ =>
      cases h
      exact .refl hrefl _

theorem checkType_alike (t : CwlType) :
    SameOutcome (fun r r' => r.1.Alike r'.1 ∧ r.2 = r'.2) (checkType node hasKey map t)
      (checkType node' hasKey map t) := by
  have hrefl : ∀ r : Verdict × Bool, r.1.Alike r.1 ∧ r.2 = r.2 := fun r => ⟨.refl _, rfl⟩
  have hcheck := CwlType.check?_alike h hkeys hasKey map t
  unfold checkType
  refine .bind (.refl (R := fun a b => a = b) (fun _ => rfl) t.name?) ?_
  rintro name _ rfl
  rw [← h.isNull_eq, ← h.isText_eq]
  split
  · exact .refl hrefl _
  split
  · exact .refl hrefl _
  split
  · cases node with
    | map form es =>
      obtain ⟨es', rfl, _⟩ := h.map_left
      exact .refl hrefl _
    | seq form items =>
      obtain ⟨items', rfl, _⟩ := h.seq_left
      exact .refl hrefl _
    | _ =>
      cases h
      exact .refl hrefl _
  · refine hcheck.bind ?_
    intro v? v?' hv
    cases hv with
    | none => exact .error _
    | some hv => exact .ok ⟨hv, by rw [hv.fit]⟩

theorem checkInOrder_alike : ∀ ts {acc acc'},
    List.Forall₂ Verdict.Alike acc acc' →
      SameOutcome (List.Forall₂ Verdict.Alike) (checkInOrder node hasKey map acc ts)
        (checkInOrder node' hasKey map acc' ts)
  | [], acc, acc', hacc => .ok (List.rel_reverse hacc)
  | t :: rest, acc, acc', hacc => by
    refine (checkType_alike h hkeys hasKey map t).bind ?_
    rintro ⟨v, final⟩ ⟨v', final'⟩ ⟨hv, hfinal⟩
    obtain rfl : final = final' := hfinal
    dsimp only
    split
    · exact .ok (.cons hv .nil)
    · exact checkInOrder_alike rest (.cons hv hacc)

end

theorem find?_alike {vs vs'} (h : List.Forall₂ Verdict.Alike vs vs') (fit) :
    Option.Rel Verdict.Alike (vs.find? fun v => v.fit == fit) (vs'.find? fun v => v.fit == fit) := by
  induction h with
  | nil => exact .none
  | cons hv _ ih =>
    rw [List.find?_cons, List.find?_cons, hv.fit]
    split
    · exact .some hv
    · exact ih

theorem choose_alike {vs vs'} (h : List.Forall₂ Verdict.Alike vs vs') :
    SameOutcome Meaning.Alike (choose vs) (choose vs') := by
  have hyes := find?_alike h .yes
  have hmaybe := find?_alike h .maybe
  have hlabels : vs.mapM (fun v => v.meaning.label) = vs'.mapM fun v => v.meaning.label := by
    clear hyes hmaybe
    induction h with
    | nil => rfl
    | cons hv _ ih => rw [List.mapM_cons, List.mapM_cons, hv.meaning.label_eq, ih]
  unfold choose
  generalize vs.find? (fun v => v.fit == .yes) = v, vs'.find? (fun v => v.fit == .yes) = v' at hyes
  cases hyes with
  | some hv => exact .ok hv.meaning
  | none =>
    generalize vs.find? (fun v => v.fit == .maybe) = v, vs'.find? (fun v => v.fit == .maybe) = v'
      at hmaybe
    cases hmaybe with
    | some hv => exact .ok hv.meaning
    | none =>
      match h with
      | .nil => exact .refl .same _
      | .cons hv .nil => exact .ok hv.meaning
      | .cons _ (.cons _ _) =>
        simp only [hlabels]
        exact .refl .same _

theorem infer_alike {n n'} (h : Node.Reordered n n') (hkeys : AllMaps TextKeys n)
    (hclass : ∀ c, n.field? "class" = some c → c.isKey = true) (l : Language)
    (allowed : List CwlType) (key : Option Node) (map : Option MapKey) :
    SameOutcome Meaning.Alike (infer l n allowed key map) (infer l n' allowed key map) := by
  have hagain : n.isAgain = n'.isAgain := h.kind_eq (fun _ _ _ => rfl) fun _ _ _ => rfl
  have hfield : n.field? "class" = n'.field? "class" := by
    have hrel := h.field?_rel hkeys "class"
    generalize n.field? "class" = c, n'.field? "class" = c' at hrel hclass
    cases hrel with
    | none => rfl
    | some hc => rw [hc.eq_of_isKey (hclass _ rfl)]
  have hexplicit : explicitType n key map = explicitType n' key map := by
    unfold explicitType
    rw [hfield]
  refine .bind ?_ fun vs vs' => choose_alike
  unfold checkTypes
  dsimp only
  rw [← hagain, ← hexplicit]
  split
  · exact .error _
  split
  · exact .refl (fun vs => List.forall₂_same.mpr fun v _ => .refl v) _
  · exact checkInOrder_alike h (fun heq => by rw [heq] at hkeys; exact hkeys.1) _ map allowed .nil

end CwlService
