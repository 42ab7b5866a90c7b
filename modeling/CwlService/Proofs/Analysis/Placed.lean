import CwlService.Proofs.Analysis.Contracts

/-! # Where the problems of a document are

Problems are reported at the spans that visits are given: the value of a leaf, the key of an
unknown field. Below the root every visit is given them, so every problem that is found there has
a place. The visit of the root is given none. A root with parts looks for the spans of its parts
itself, but one that is a leaf, such as a process of an unknown class, reports without a place. -/
namespace CwlService

open Diagnostic (AllPlaced)

namespace Analysis

/-! ## Leaves -/

/-- A part of the way that starts somewhere and comes to an end reports one problem at a span if a
condition holds, and none otherwise. -/
def ReportsIf {α : Type} (c : Prop) (loc : Option Span) (s : Analysis × Yaml.Reader) (x : Walk α) : Prop :=
  ∀ v s', Ends x s v s' → (c → ∃ d, s'.1.problems = s.1.problems ++ [d] ∧ d.span = loc) ∧
    (¬c → s'.1.problems = s.1.problems)

namespace ReportsIf

variable {α β : Type} {c : Prop} {loc : Option Span} {s : Analysis × Yaml.Reader}

theorem pure (hc : ¬c) (a : α) : ReportsIf c loc s (Pure.pure a) := by
  intro v s' h
  obtain ⟨_, rfl⟩ := h.pure
  exact ⟨fun h => absurd h hc, fun _ => rfl⟩

theorem throw (f : Fault) : ReportsIf c loc s (throw f : Walk α) := by
  intro v s' h
  cases h

theorem throw_bind (f) {y : α → Walk β} : ReportsIf c loc s (MonadExcept.throw f >>= y) := by
  intro v s' h
  obtain ⟨_, _, hthrow, _⟩ := h.bind
  cases hthrow

theorem hint (hc : ¬c) (span) (h : Option Hint) : ReportsIf c loc s (Walk.hint span h) := by
  intro v s' hends
  rw [hends.modify]
  exact ⟨fun h => absurd h hc, fun _ => rfl⟩

theorem report (hc : c) (d : Diagnostic) : ReportsIf c d.span s (Walk.report d) := by
  intro v s' h
  rw [h.modify]
  exact ⟨fun _ => ⟨d, rfl, rfl⟩, fun hnot => absurd hc hnot⟩

theorem ite {p : Prop} [Decidable p] {x y : Walk α} (hx : ReportsIf c loc s x) (hy : ReportsIf c loc s y) :
    ReportsIf c loc s (if p then x else y) := by
  split
  · exact hx
  · exact hy

theorem lift_bind {e : Except Fault α} {y : α → Walk β} (hy : ∀ a, e = .ok a → ReportsIf c loc s (y a)) :
    ReportsIf c loc s (liftM e >>= y) := by
  intro v s'' h
  obtain ⟨a, s', hx, hy'⟩ := h.bind
  obtain ⟨ha, rfl⟩ := hx.lift
  exact hy a ha v s'' hy'

theorem get_bind {y : Analysis → Walk β} (hy : ReportsIf c loc s (y s.1)) : ReportsIf c loc s (get >>= y) := by
  intro v s'' h
  obtain ⟨a, s', hx, hy'⟩ := h.bind
  obtain ⟨rfl, rfl⟩ := hx.get
  exact hy v s'' hy'

theorem andThen {x} {y : α → Walk β} (hx : ReportsIf c loc s x)
    (hy : ∀ a s', ReportsIf False loc s' (y a)) : ReportsIf c loc s (x >>= y) := by
  intro v s'' h
  obtain ⟨a, s', hx', hy'⟩ := h.bind
  rw [(hy a s' v s'' hy').2 not_false]
  exact hx a s' hx'

end ReportsIf

variable (target name node : Node)

/-- A link leads nowhere: following it has problems. -/
def LeadsNowhere (env : Setting) (target : Node) (loc : Option Span) (r : Yaml.Reader) : Prop :=
  ∃ l ds, ((env.workspace.followNode env.doc target loc).run.run r).1 = .ok (l, ds) ∧ ds ≠ []

/-- A node that is taken for a leaf is wrong, given what is known before it. A meaning that has
parts is not wrong by itself. -/
def WrongLeaf (env : Setting) (node : Node) (value : Option Span) (s : Analysis × Yaml.Reader) :
    Meaning → Prop
  | .typed (.enum _ symbols) => symbols.any node.same = false
  | .dataType _ symbols => ((Language.distinct (Node.Entries.keys s.1.types ++ symbols)).any fun k =>
      k.isName (bareTypeName (node.text?.getD ""))) = false
  | .linkedFile target _ => LeadsNowhere env target value s.2
  | .linkedType target => LeadsNowhere env target value s.2
  | .namespaced name =>
    isDeclared (((name.text?.getD "").splitOn ":").headD "") s.1.namespaces = .ok false
  | .unknown _ _ => True
  | _ => False

section

variable {env : Setting} {s : Analysis × Yaml.Reader}

theorem expectKnown_reports (known : Bool) (span : Option Span) (names : Except Fault (List Node)) :
    ReportsIf (known = false) span s (expectKnown known span names) := by
  cases known with
  | true => exact .pure (by decide) ()
  | false => exact .lift_bind fun names _ => .report rfl (expecting span names)

theorem visitSymbols_reports (symbols : List Node) (node : Node) (value : Option Span) :
    ReportsIf (symbols.any node.same = false) value s (visitSymbols name symbols node value) := by
  unfold visitSymbols
  exact .ite (.throw_bind _) (.andThen (expectKnown_reports _ value _) fun _ _ => .hint not_false value _)

theorem visitDataType_reports (symbols node value) :
    ReportsIf (((Language.distinct (Node.Entries.keys s.1.types ++ symbols)).any fun k =>
      k.isName (bareTypeName (node.text?.getD ""))) = false) value s (visitDataType symbols node value) := by
  unfold visitDataType
  cases node.text? with
  | none => exact .throw _
  | some text =>
    refine .get_bind (.ite (.throw_bind _) (.andThen ?_ fun _ _ => .hint not_false value _))
    exact expectKnown_reports _ value _

theorem visitNamespaced_reports (key value : Option Span) :
    ReportsIf (isDeclared (((name.text?.getD "").splitOn ":").headD "") s.1.namespaces = .ok false)
      (key.or value) s (visitNamespaced name key value) := by
  unfold visitNamespaced
  cases name.text? with
  | none => exact .throw _
  | some text =>
    refine .get_bind (.lift_bind fun declared hdeclared => ?_)
    rw [Option.getD_some, hdeclared, Except.ok.injEq]
    exact expectKnown_reports declared (key.or value) _

theorem visitUnknown_reports (expected : List Expected) (value : Option Span) :
    ReportsIf True value s (visitUnknown name expected value) := .report trivial (.error value _)

theorem visitLink_reports (extension value) (asHint : Link → Hint) :
    ReportsIf (LeadsNowhere env target value s.2) value s (visitLink env target extension value asHint) := by
  intro v s' h
  have hone := Workspace.followNode_oneAt env.workspace env.doc target value s.2
  rw [Ends, visitLink_run] at h
  unfold LeadsNowhere
  generalize (env.workspace.followNode env.doc target value).run.run s.2 = e at h hone ⊢
  obtain ⟨_ | ⟨l, ds⟩, r⟩ := e
  · cases h
  have hafter : s'.1 = _ := congrArg (·.1.2) h.symm
  rw [hafter]
  rcases hone _ rfl with rfl | ⟨d, rfl, hspan⟩
  · refine ⟨?_, fun _ => List.append_nil _⟩
    rintro ⟨_, _, ⟨⟩, hds⟩
    exact absurd rfl hds
  · exact ⟨fun _ => ⟨d, rfl, hspan⟩, fun h => absurd ⟨l, _, rfl, List.cons_ne_nil d []⟩ h⟩

theorem visitTypeLink_reports (value : Option Span) :
    ReportsIf (LeadsNowhere env target value s.2) value s (visitTypeLink env target value) := by
  refine .andThen (visitLink_reports target none value .typeLink) fun n s' => ?_
  cases n with
  | map form es =>
    dsimp only
    split
    · exact .pure not_false _
    · intro v s'' h
      obtain ⟨_, s₁, hput, h⟩ := h.bind
      obtain ⟨_, rfl⟩ := h.pure
      rw [hput.modify]
      exact ⟨False.elim, fun _ => rfl⟩
    · exact .throw _
  | _ => exact .pure not_false _

end

/-! ## Nodes with parts -/

/-- What a visit below the root is given: a span of its value, and one of its key if it is an
entry. -/
structure Located (map : Option MapKey) (key value : Option Span) : Prop where
  value_known : Span.Known value
  key_known : key = none ∨ Span.Known key
  entry_known : map.isSome = true → Span.Known key

theorem partsOf_ordered : Gives (fun parts => ∀ part ∈ parts, Gives Span.Ordered part.2) (partsOf node) := by
  cases node with
  | seq form items =>
    refine .pure fun part hpart => ?_
    obtain ⟨i, _, rfl⟩ := List.mem_map.mp hpart
    exact Node.itemSpan_ordered _ _
  | map form es =>
    refine .pure fun part hpart => ?_
    obtain ⟨e, _, rfl⟩ := List.mem_map.mp hpart
    exact Node.valueSpan_ordered _ _
  | text t styled =>
    refine .pure fun part hpart => ?_
    obtain ⟨c, _, rfl⟩ := List.mem_map.mp hpart
    exact .throw _
  | bytes bs =>
    refine .pure fun part hpart => ?_
    obtain ⟨b, _, rfl⟩ := List.mem_map.mp hpart
    exact .throw _
  | _ => exact .throw _

/-- All problems have a place, if the way comes to an end. -/
def allPlaced : Property where
  Holds a := AllPlaced a.problems
  Left _ := True
  Allows := Diagnostic.Placed
  placed := id
  left _ _ := trivial
  same _ hproblems h := hproblems ▸ h
  report hd h := h.concat hd
  hint _ h := h

/-- Visits below the root are given their places. The root has none of its own; it finds those of
its parts if it is a map. -/
def located (env : Setting) : Contract env allPlaced.kept where
  Admits m node _ map key value := Located map key value ∨ node.isMap = true ∧ hasParts m = true
  leaf {m _ _ _ key value} h hm d hd := by
    obtain hlocated | ⟨_, hparts⟩ := h
    · show Span.Known d.span
      rw [hd]
      unfold leafSpan
      split
      · rcases hlocated.key_known with rfl | ⟨span, rfl, hspan⟩
        · exact hlocated.value_known
        · exact hspan.known
      · exact hlocated.value_known
    · rw [hm] at hparts
      cases hparts
  expression _ _ ha := ha
  field _ e _ keySpan valueSpan hkey hvalue _ _ _ _ :=
    have hkey := (Node.keySpan_ordered _ _ _ hkey).known
    .inl ⟨(Node.valueSpan_ordered _ _ _ hvalue).known, .inr hkey, fun _ => hkey⟩
  standsFor h hnode _ := by
    obtain hlocated | ⟨hmap, _⟩ := h
    · refine ⟨fun d hd => ?_, fun _ _ _ _ => .inl hlocated⟩
      show Span.Known d.span
      rw [hd]
      exact hlocated.entry_known rfl
    · rw [hnode] at hmap
      cases hmap
  item _ parts hparts p hp _ _ span hspan _ _ :=
    .inl ⟨(partsOf_ordered _ parts hparts p hp span hspan).known, .inl rfl, nofun⟩
  entry _ l hl e he _ _ _ _ keySpan valueSpan hkey hvalue _ _ :=
    have hkey := (Listing.idSpan_ordered ((Listing.of_placed _ _).2 l hl e he) _ hkey).known
    .inl ⟨(l.valueSpan_ordered e _ hvalue).known, .inr hkey, fun _ => hkey⟩

/-! ## All together -/

theorem visitOne_reports {env visit m} (hm : hasParts m = false) (node : Node) (ctx : Context)
    (map : Option MapKey) (key value : Option Span) (s : Analysis × Yaml.Reader) :
    ReportsIf (WrongLeaf env node value s m) (leafSpan key value m) s
      (visitOne env visit m node ctx map key value) := by
  have hdone : ∀ s', ReportsIf False value s' (Pure.pure ctx) := fun _ => .pure not_false _
  cases m with
  | typed t =>
    cases t with
    | enum name symbols => exact .andThen (visitSymbols_reports _ _ _ _) fun _ => hdone
    | array | listOrMap | record => cases hm
    | _ => exact .pure not_false _
  | absent t => exact .pure not_false _
  | dataType name symbols => exact .andThen (visitDataType_reports _ _ _) fun _ => hdone
  | expression text => exact .andThen (.hint not_false _ _) fun _ => hdone
  | linkedFile target extension => exact .andThen (visitLink_reports _ _ _ _) fun _ _ => .pure not_false _
  | linkedType target => exact .andThen (visitTypeLink_reports _ _) fun _ _ => .pure not_false _
  | namespaced name => exact .andThen (visitNamespaced_reports _ _ _) fun _ _ => .pure not_false _
  | unknown name expected => exact .andThen (visitUnknown_reports _ _ _) fun _ => hdone

theorem WrongLeaf.hasParts_eq {env node value s m} (h : WrongLeaf env node value s m) : hasParts m = false := by
  cases m with
  | typed t =>
    cases t with
    | array | listOrMap | record => cases h
    | _ => rfl
  | _ => rfl

/-- What a whole document is taken for. Its class may be one that it does not list. -/
def rootMeaning (env : Setting) (loaded : Yaml.Reader.Loaded) : Except Fault Meaning :=
  let named := (loaded.full.field? "class").any fun c => !c.isNull
  env.meaning ⟨if named then loaded.full else loaded.node,
    Language.processTypes.map fun t => (env.language.get? t).getD .missing, none, none⟩

/-- The way through a document that is a map ends with one problem without a place if the document
is a leaf and wrong, and otherwise all problems have a place. -/
theorem walk_placed {env loaded} (hnode : loaded.node.isMap = true) {s s'} (hs : s.1.problems = [])
    (h : Ends (walk env loaded) s () s') :
    ∃ m, rootMeaning env loaded = .ok m ∧
      (WrongLeaf env loaded.node none s m → ∃ d, s'.1.problems = [d] ∧ d.span = none) ∧
      (¬WrongLeaf env loaded.node none s m → AllPlaced s'.1.problems) := by
  obtain ⟨m, s₁, hmeaning, hvisit⟩ := h.bind
  obtain ⟨hm, rfl⟩ := hmeaning.lift
  obtain ⟨v, hends⟩ := hvisit.discard
  refine ⟨m, hm, ?_⟩
  obtain ⟨depth, hdepth⟩ : ∃ depth, visitDepth loaded.node = depth + 1 :=
    ⟨100 * (loaded.node.depth + 1) - 1, by unfold visitDepth; omega⟩
  rw [hdepth] at hends
  cases hparts : hasParts m with
  | true =>
    have hplaced : Keeps allPlaced.kept s₁.1 (visitTo env (depth + 1) m loaded.node
        { unlisted := loaded.unlisted } none none none) _ :=
      visitTo_keeps (located env) (depth + 1) (.inr ⟨hnode, hparts⟩) trivial
    have hplaced := hplaced s₁.2
    rw [show ((visitTo env (depth + 1) m _ _ _ _ _).run.run _).run _ = _ from hends] at hplaced
    refine ⟨fun hwrong => ?_, fun _ => hplaced.1 (by show AllPlaced _; rw [hs]; exact .nil)⟩
    rw [hwrong.hasParts_eq] at hparts
    cases hparts
  | false =>
    obtain ⟨hwrong, hright⟩ := visitOne_reports hparts loaded.node _ none none none _ _ _ hends
    rw [hs] at hwrong hright
    refine ⟨fun hleaf => ?_, fun hleaf => ?_⟩
    · obtain ⟨d, hproblems, hspan⟩ := hwrong hleaf
      refine ⟨d, hproblems, hspan.trans ?_⟩
      unfold leafSpan
      split <;> rfl
    · rw [hright hleaf]
      exact .nil

end Analysis
end CwlService
