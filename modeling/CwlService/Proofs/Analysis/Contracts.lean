import CwlService.Proofs.Analysis.Steps

/-! # Invariants of the way through a document

Some properties of what is known last as long as every visit is given what it needs. A contract says
what a visit is given, and that what it gives to the visits below it is enough for them. Then the
property lasts through the whole way. -/
namespace CwlService

open Diagnostic (AllPlaced)
open List

def Hint.isExpression : Option Hint → Bool
  | some (.expression ..) => true
  | _ => false

/-- A hint that can be given anywhere: it is no text with expressions and refers to no step or
workflow. -/
def Hint.isPlain : Option Hint → Bool
  | some (.expression ..) | some (.stepSource ..) | some (.outputSource ..) => false
  | _ => true

namespace Analysis

/-! ## Invariants -/

/-- How many workflows there are, and which of them the steps belong to. -/
def owners (a : Analysis) : Nat × List (Option Nat) := (a.workflows.length, a.steps.map (·.owner))

/-- What is known after a part of the way that reads nothing. -/
def after {α : Type} (a : Analysis) (x : Walk α) : Analysis := ((x.run.run a).run .plain).1.2

theorem after_modify (a) (change : Analysis → Analysis) : a.after (modify change) = change a := rfl

theorem map_owner_modify (steps : List Step) (n) {change : Step → Step}
    {g : Option Nat → Option Nat} (h : ∀ s, (change s).owner = g s.owner) :
    (steps.modify n change).map (·.owner) = (steps.map (·.owner)).modify n g := by
  refine ext_getElem? fun i => ?_
  simp only [getElem?_map, getElem?_modify]
  cases steps[i]? <;> split <;> simp [h]

theorem after_attach (a : Analysis) (w step) : (a.after (Walk.attach w step)).hints = a.hints ∧
    (a.after (Walk.attach w step)).problems = a.problems ∧
    (a.after (Walk.attach w step)).owners =
      (a.workflows.length, (a.steps.map (·.owner)).modify step fun _ => some w) := by
  rw [Walk.attach, after_modify]
  cases hstep : a.steps[step]? with
  | none =>
    refine ⟨rfl, rfl, ?_⟩
    have hout : (a.steps.map (·.owner)).length ≤ step := by simpa using hstep
    rw [owners, modify_eq_self hout]
  | some s => exact ⟨rfl, rfl, Prod.ext (length_modify _ _ _) (map_owner_modify _ _ fun _ => rfl)⟩

/-- What lasts from the beginning of a part of the way to its end, and what is left after a fault. -/
structure Invariant where
  Lasts : Analysis → Analysis → Prop
  Left : Analysis → Analysis → Prop
  /-- The problems that may be reported. -/
  Allows : Diagnostic → Prop
  /-- The workflow and the step around are known. -/
  Around : Context → Analysis → Prop
  refl : ∀ a, Lasts a a
  trans : ∀ {a b c}, Lasts a b → Lasts b c → Lasts a c
  left : ∀ {a b}, b.hints = a.hints → Left a b
  left_trans : ∀ {a b c}, Lasts a b → Left b c → Left a c
  placed : ∀ {d : Diagnostic}, d.Placed → Allows d
  same : ∀ {a b}, b.hints = a.hints → b.problems = a.problems → b.owners = a.owners → Lasts a b
  report : ∀ {a d}, Allows d → Lasts a (a.after (Walk.report d))
  hint : ∀ {a span h}, Hint.isPlain h = true → Lasts a (a.after (Walk.hint span h))
  around : ∀ {ctx here a b}, Around ctx a → Lasts a b → here.workflow = ctx.workflow → here.step = ctx.step →
    Around here b
  stepSource : ∀ {ctx a s}, Around ctx a → ctx.step = some s →
    ∀ span n, Lasts a (a.after (Walk.hint span (some (.stepSource s n))))
  outputSource : ∀ {ctx a w}, Around ctx a → ctx.workflow = some w →
    ∀ span n, Lasts a (a.after (Walk.hint span (some (.outputSource w n))))
  workflow : ∀ {ctx a} w, Around ctx a → Lasts a (a.after (Walk.openWorkflow w)) ∧
    Around { ctx with workflow := some a.workflows.length } (a.after (Walk.openWorkflow w))
  step : ∀ {ctx a} id, Around ctx a → Around { ctx with step := some a.steps.length } (a.after (Walk.openStep id))
  left_of_step : ∀ {a b id}, Left (a.after (Walk.openStep id)) b → Left a b
  /-- A step that was begun belongs to the workflow around in the end. -/
  attached : ∀ {ctx a b w id}, Around ctx a → ctx.workflow = some w → Lasts (a.after (Walk.openStep id)) b →
    Lasts a (b.after (Walk.attach w a.steps.length))

/-- What comes of a part of the way that keeps an invariant, with a result of some kind. -/
def Invariant.Kept {α : Type} (inv : Invariant) (a : Analysis) (Q : α → Analysis → Prop) :
    Except Fault α × Analysis → Prop
  | (.ok v, b) => inv.Lasts a b ∧ Q v b
  | (.error _, b) => inv.Left a b

/-- A part of the way keeps an invariant from somewhere on. -/
def Keeps {α : Type} (inv : Invariant) (a : Analysis) (x : Walk α) (Q : α → Analysis → Prop) : Prop :=
  ∀ r, inv.Kept a Q ((x.run.run a).run r).1

/-- Nothing more is known of the result. -/
abbrev Any {α : Type} : α → Analysis → Prop := fun _ _ => True

namespace Keeps

variable {α β : Type} {inv : Invariant} {a : Analysis} {Q : α → Analysis → Prop} {R : β → Analysis → Prop}

theorem pure {v} (h : Q v a) : Keeps inv a (Pure.pure v) Q := fun _ => ⟨inv.refl a, h⟩

theorem throw (f : Fault) : Keeps inv a (throw f : Walk α) Q := fun _ => inv.left rfl

variable {x : Walk α} {y : α → Walk β} {xs : List α}

theorem bind (hx : Keeps inv a x Q) (hy : ∀ v b, inv.Lasts a b → Q v b → Keeps inv b (y v) R) :
    Keeps inv a (x >>= y) R := by
  intro r
  have hfirst := hx r
  rw [ExceptT.run_bind, StateT.run_bind, StateT.run_bind]
  cases hrun : (x.run.run a).run r with
  | mk p r' =>
    obtain ⟨e, b⟩ := p
    rw [hrun] at hfirst
    cases e with
    | error f => exact hfirst
    | ok v =>
      have hrest := hy v b hfirst.1 hfirst.2 r'
      change inv.Kept a R (((y v).run.run b).run r').1
      generalize (((y v).run.run b).run r').1 = outcome at hrest ⊢
      obtain ⟨_ | u, c⟩ := outcome
      · exact inv.left_trans hfirst.1 hrest
      · exact ⟨inv.trans hfirst.1 hrest.1, hrest.2⟩

theorem throw_bind (f : Fault) : Keeps inv a (MonadExcept.throw f >>= y) R :=
  .bind (Q := fun _ _ => False) (.throw f) nofun

theorem imp {Q' : α → Analysis → Prop} (h : Keeps inv a x Q) (hQ : ∀ v b, inv.Lasts a b → Q v b → Q' v b) :
    Keeps inv a x Q' := by
  rw [← bind_pure x]
  exact .bind h fun v b hlasts hv => .pure (hQ v b hlasts hv)

theorem lift_bind {e : Except Fault α} (hy : ∀ v, e = .ok v → Keeps inv a (y v) R) : Keeps inv a (liftM e >>= y) R := by
  cases e with
  | error f => exact .throw_bind f
  | ok v => exact hy v rfl

theorem get_bind {y : Analysis → Walk β} (hy : Keeps inv a (y a) R) : Keeps inv a (get >>= y) R := hy

theorem modify {change : Analysis → Analysis} (h : inv.Lasts a (change a)) : Keeps inv a (modify change) Any :=
  fun _ => ⟨h, trivial⟩

theorem hint {span h} (hh : Hint.isPlain h = true) : Keeps inv a (Walk.hint span h) Any :=
  .modify (inv.hint hh)

theorem report {d} (hd : inv.Allows d) : Keeps inv a (Walk.report d) Any := .modify (inv.report hd)

theorem ite {c : Prop} [Decidable c] {y} (hx : Keeps inv a x Q) (hy : Keeps inv a y Q) :
    Keeps inv a (if c then x else y) Q := by
  split
  · exact hx
  · exact hy

theorem foldlM {f : β → α → Walk β} (hf : ∀ v b, R v b → ∀ x ∈ xs, Keeps inv b (f v x) R) {v : β} (hv : R v a) :
    Keeps inv a (xs.foldlM f v) R := by
  induction xs generalizing v a with
  | nil => exact .pure hv
  | cons x xs ih =>
    rw [foldlM_cons]
    refine .bind (hf v a hv x mem_cons_self) fun u b _ hu => ih (fun u b hu y hy => ?_) hu
    exact hf u b hu y (mem_cons_of_mem _ hy)

theorem forM {f : α → Walk Unit} (hf : ∀ b, inv.Lasts a b → ∀ x ∈ xs, Keeps inv b (f x) Any) :
    Keeps inv a (xs.forM f) Any := by
  induction xs generalizing a with
  | nil => exact .pure trivial
  | cons x xs ih =>
    refine .bind (hf a (inv.refl a) x mem_cons_self) fun _ b hb _ => ih fun c hc y hy => ?_
    exact hf c (inv.trans hb hc) y (mem_cons_of_mem _ hy)

theorem reportAll {ds} (h : ∀ d ∈ ds, inv.Allows d) : Keeps inv a (Walk.reportAll ds) Any :=
  .forM fun _ _ d hd => .report (h d hd)

/-- Something that reports problems of its own; they need a place only if it does not fail. -/
theorem reported {r : Reported α} (hr : r.2.isOk = true → AllPlaced r.1) :
    Keeps inv a (Walk.reported r) fun v _ => r.2 = .ok v := by
  obtain ⟨ds, e⟩ := r
  cases e with
  | ok v => exact .bind (.reportAll fun d hd => inv.placed (hr rfl d hd)) fun _ _ _ _ => .pure rfl
  | error f =>
    intro r
    rw [Walk.reported, ExceptT.run_bind, StateT.run_bind, StateT.run_bind, reportAll_run]
    exact inv.left rfl

theorem discarded (hx : Keeps inv a x Q) : Keeps inv a (discard x) Any := by
  rw [Functor.discard, LawfulFunctor.map_const, Function.comp, ← bind_pure_comp]
  exact .bind hx fun _ _ _ _ => .pure trivial

theorem withLinks {x} {Q : α → Prop} (hx : ∀ r, Gives Q (x.run.run r).1) :
    Keeps inv a (Walk.withLinks x) fun v _ => Q v := by
  intro r
  have hrun : ((Walk.withLinks x).run.run a).run r = (((x.run.run r).1, a), (x.run.run r).2) := rfl
  rw [hrun]
  cases h : (x.run.run r).1 with
  | ok v => exact ⟨inv.refl a, hx r v h⟩
  | error f => exact inv.left rfl

theorem interfaceOf (step) : Keeps inv a (Walk.interfaceOf step) Any := fun _ => ⟨inv.refl a, trivial⟩

theorem openWorkflow {ctx} (h : inv.Around ctx a) (w : Workflow) :
    Keeps inv a (Walk.openWorkflow w) fun n b => inv.Around { ctx with workflow := some n } b :=
  fun _ => inv.workflow w h

/-- A step is begun, gone through and then attached to the workflow around. -/
theorem throughStep {ctx} (h : inv.Around ctx a) (id : Node) {inside : Nat → Walk Unit}
    (hinside : ∀ n b, inv.Around { ctx with step := some n } b → Keeps inv b (inside n) Any) :
    Keeps inv a (throughStep id ctx inside) Any := by
  intro r
  have hvisit := hinside _ _ (inv.step id h) r
  have hrun : ((Analysis.throughStep id ctx inside).run.run a).run r = (((do
      inside a.steps.length
      Walk.attach (← ctx.theWorkflow) a.steps.length : Walk Unit).run.run (a.after (Walk.openStep id))).run r) := rfl
  rw [hrun, ExceptT.run_bind, StateT.run_bind, StateT.run_bind]
  cases hinner : ((inside a.steps.length).run.run (a.after (Walk.openStep id))).run r with
  | mk p r' =>
    obtain ⟨e, b⟩ := p
    rw [hinner] at hvisit
    cases e with
    | error f => exact inv.left_of_step hvisit
    | ok _ =>
      cases hw : ctx.workflow with
      | none =>
        simp only [Context.theWorkflow, hw]
        exact inv.left_of_step (inv.left_trans hvisit.1 (inv.left rfl))
      | some w =>
        simp only [Context.theWorkflow, hw]
        exact ⟨inv.attached h hw hvisit.1, trivial⟩

end Keeps

/-- A property of what is known that does not depend on steps and workflows, and what is left of it
after a fault. -/
structure Property where
  Holds : Analysis → Prop
  Left : Analysis → Prop
  Allows : Diagnostic → Prop
  placed : ∀ {d : Diagnostic}, d.Placed → Allows d
  left : ∀ {a b : Analysis}, b.hints = a.hints → Holds a → Left b
  same : ∀ {a b : Analysis}, b.hints = a.hints → b.problems = a.problems → Holds a → Holds b
  report : ∀ {a d}, Allows d → Holds a → Holds (a.after (Walk.report d))
  hint : ∀ {a span h}, Hint.isExpression h = false → Holds a → Holds (a.after (Walk.hint span h))

/-- The property holds at the end of a part of the way if it holds at its beginning. -/
def Property.kept (p : Property) : Invariant where
  Lasts a b := p.Holds a → p.Holds b
  Left a b := p.Holds a → p.Left b
  Allows := p.Allows
  Around _ _ := True
  refl _ := id
  trans hab hbc := hbc ∘ hab
  left := p.left
  left_trans hab hbc := hbc ∘ hab
  placed := p.placed
  same hhints hproblems _ := p.same hhints hproblems
  report := p.report
  hint {_ _ h} hplain := p.hint (by
    rcases h with _ | h
    · rfl
    cases h with
    | expression => cases hplain
    | _ => rfl)
  around _ _ _ _ := trivial
  stepSource _ _ _ _ := p.hint rfl
  outputSource _ _ _ _ := p.hint rfl
  workflow _ _ := ⟨p.same rfl rfl, trivial⟩
  step _ _ := trivial
  left_of_step h := h ∘ p.same rfl rfl
  attached {_ a b _ _} _ _ h ha := by
    have hb : p.Holds b := h (p.same (a := a) rfl rfl ha)
    exact p.same (after_attach b _ _).1 (after_attach b _ _).2.1 hb

/-! ## Leaves -/

/-- What is taken for something with parts. -/
def hasParts : Meaning → Bool
  | .typed (.array ..) | .typed (.listOrMap ..) | .typed (.record ..) => true
  | _ => false

/-- The span at which a leaf is reported. -/
def leafSpan (key value : Option Span) : Meaning → Option Span
  | .namespaced _ => key.or value
  | _ => value

section

variable {env : Setting} {inv : Invariant} {visit : Visit} {a : Analysis}

/-- All problems at a span may be reported. -/
def Invariant.AllowsAt (inv : Invariant) (span : Option Span) : Prop := ∀ d : Diagnostic, d.span = span → inv.Allows d

theorem Invariant.allowsAt_of_ordered {span} (h : span.Ordered) : inv.AllowsAt (some span) :=
  fun d hd => inv.placed (show Span.Known d.span from hd ▸ h.known)

theorem expectKnown_keeps {span} (hspan : inv.AllowsAt span) (names : Except Fault (List Node))
    (known : Bool) : Keeps inv a (expectKnown known span names) Any :=
  .ite (.lift_bind fun _ _ => .report (hspan _ rfl)) (.pure trivial)

theorem visitSymbols_keeps {value} (hvalue : inv.AllowsAt value) (name : Node) (symbols : List Node)
    (node : Node) : Keeps inv a (visitSymbols name symbols node value) Any :=
  .ite (.throw_bind _) (.bind (expectKnown_keeps hvalue _ _) fun _ _ _ _ => .hint rfl)

theorem visitDataType_keeps {value} (hvalue : inv.AllowsAt value) (symbols : List Node)
    (node : Node) :
    Keeps inv a (visitDataType symbols node value) Any := by
  unfold visitDataType
  cases node.text? with
  | none => exact .throw _
  | some text => exact .get_bind (.ite (.throw_bind _) (.bind (expectKnown_keeps hvalue _ _) fun _ _ _ _ => .hint rfl))

variable {key value : Option Span}

theorem visitNamespaced_keeps (hspan : inv.AllowsAt (key.or value)) (name : Node) :
    Keeps inv a (visitNamespaced name key value) Any := by
  unfold visitNamespaced
  cases name.text? with
  | none => exact .throw _
  | some text => exact .get_bind (.lift_bind fun known _ => expectKnown_keeps hspan _ known)

theorem visitLink_keeps {value} (hvalue : inv.AllowsAt value) (target extension)
    {asHint : Link → Hint} (hhint : ∀ l, Hint.isPlain (asHint l) = true) :
    Keeps inv a (visitLink env target extension value asHint) Any := by
  refine .bind (.withLinks (Workspace.followNode_oneAt _ _ _ value)) fun v _ _ hv => .bind (.reportAll fun d hd => ?_)
    fun _ _ _ _ => .bind (.hint (hhint _)) fun _ _ _ _ => .pure trivial
  rcases hv with hv | ⟨d', hv, hspan⟩
  · rw [hv] at hd
    cases hd
  · rw [hv, mem_singleton] at hd
    exact hvalue d (hd ▸ hspan)

theorem visitTypeLink_keeps {value} (hvalue : inv.AllowsAt value) (target : Node) :
    Keeps inv a (visitTypeLink env target value) Any := by
  refine .bind (visitLink_keeps hvalue target none fun _ => rfl) fun n _ _ _ => ?_
  cases n with
  | map form es =>
    dsimp only
    split
    · exact .pure trivial
    · exact .bind (.modify (inv.same rfl rfl rfl)) fun _ _ _ _ => .pure trivial
    · exact .throw _
  | _ => exact .pure trivial

/-- What a visit gives for what comes next beside it. -/
def Invariant.Beside (inv : Invariant) (ctx here : Context) (a : Analysis) : Prop :=
  here.path = ctx.path ∧ inv.Around here a

/-- A leaf reports problems at its span only. -/
theorem visitOne_leaf {m} (hm : hasParts m = false) (node : Node) {ctx} (hctx : inv.Around ctx a)
    (map : Option MapKey) (hspan : inv.AllowsAt (leafSpan key value m))
    (hexpression : ∀ text, m = .expression text →
      inv.Lasts a (a.after (Walk.hint value (some (.expression text ctx.path value))))) :
    Keeps inv a (visitOne env visit m node ctx map key value) (inv.Beside ctx) := by
  have hnext : ∀ {b}, inv.Lasts a b → ∀ linked, inv.Beside ctx { ctx with linked } b :=
    fun h _ => ⟨rfl, inv.around hctx h rfl rfl⟩
  cases m with
  | typed t =>
    cases t with
    | enum name symbols => exact .bind (visitSymbols_keeps hspan _ _ _) fun _ _ h _ => .pure (hnext h _)
    | array | listOrMap | record => cases hm
    | _ => exact .pure ⟨rfl, hctx⟩
  | absent t => exact .pure ⟨rfl, hctx⟩
  | dataType name symbols => exact .bind (visitDataType_keeps hspan _ _) fun _ _ h _ => .pure (hnext h _)
  | expression text => exact .bind (.modify (hexpression text rfl)) fun _ _ h _ => .pure (hnext h _)
  | linkedFile target extension =>
    exact .bind (visitLink_keeps hspan _ _ fun _ => rfl) fun _ _ h _ => .pure (hnext h _)
  | linkedType target => exact .bind (visitTypeLink_keeps hspan _) fun _ _ h _ => .pure (hnext h _)
  | namespaced name => exact .bind (visitNamespaced_keeps hspan _) fun _ _ h _ => .pure (hnext h _)
  | unknown name expected => exact .bind (.report (hspan _ rfl)) fun _ _ h _ => .pure (hnext h _)

/-! ## What fields are taken for -/

/-- What an entry of a record may be taken for. -/
inductive Taken (env : Setting) (fields : Fields) (k child : Node) : Meaning → Prop where
  | link : Taken env fields k child (.linkedFile child (some ".cwl"))
  | namespaced (name : Node) : Taken env fields k child (.namespaced name)
  | typed {name styled required types m} (hk : k = .text name styled)
      (hfield : (name, required, types) ∈ fields)
      (hm : env.meaning ⟨child, types, some (.str name), none⟩ = .ok m) : Taken env fields k child m

theorem unknownField_keeps {key} (hkey : inv.AllowsAt key) (record : Node) (shown : String)
    (known : Bool) {Q : Option Meaning → Prop} (hQ : Q none) : Keeps inv a (do
      if !known then reportUnknown record key shown
      pure (none : Option Meaning)) fun m? _ => Q m? :=
  .ite (.bind (.report (hkey _ rfl)) fun _ _ _ _ => .pure hQ) (.pure hQ)

theorem entryMeaning_keeps {key} (hkey : inv.AllowsAt key) (record fields k child written) :
    Keeps inv a (entryMeaning env record fields k child written key)
      fun m? _ => ∀ m ∈ m?, Taken env fields k child m := by
  have hsome : ∀ {m : Meaning}, Taken env fields k child m → ∀ n ∈ some m, Taken env fields k child n := by
    rintro m hm n ⟨⟩
    exact hm
  cases k with
  | text name styled =>
    refine .ite (.pure (hsome .link)) (.ite (.bind (.modify (inv.same rfl rfl rfl)) fun _ _ _ _ => .pure nofun)
      (.ite (.pure nofun) (.ite (.pure (hsome (.namespaced _))) ?_)))
    cases hget : fields.get? name with
    | some f =>
      obtain ⟨before, after, hsplit, _⟩ := lookup_eq_some_iff.mp hget
      have hmem : (name, f) ∈ fields := hsplit ▸ mem_append_right _ mem_cons_self
      exact .lift_bind fun m hm => .pure (hsome (.typed rfl hmem hm))
    | none => exact .ite (.throw_bind _) (unknownField_keeps hkey record name _ nofun)
  | seq form items =>
    refine .ite (.pure (hsome (.namespaced _))) (.ite (.throw_bind _) ?_)
    cases items with
    | nil => exact .throw _
    | cons first rest => exact unknownField_keeps hkey record _ _ nofun
  | map form es => exact .ite (.pure (hsome (.namespaced _))) (.throw _)
  | _ => exact .throw _

/-! ## Contracts -/

/-- What visits are given: enough to keep an invariant at a leaf, and enough for the visits of the
parts of what has parts. -/
structure Contract (env : Setting) (inv : Invariant) where
  Admits : Meaning → Node → Context → Option MapKey → Option Span → Option Span → Prop
  leaf : ∀ {m node ctx map key value}, Admits m node ctx map key value → hasParts m = false →
    inv.AllowsAt (leafSpan key value m)
  expression : ∀ {text node ctx map key value}, Admits (.expression text) node ctx map key value →
    ∀ a, inv.Lasts a (a.after (Walk.hint value (some (.expression text ctx.path value))))
  /-- A field of a record that is a map. -/
  field : ∀ {name documented fields form es ctx map key value},
    Admits (.typed (.record name documented fields)) (.map form es) ctx map key value → ∀ e ∈ es, ∀ keySpan valueSpan,
      (Node.map form es).keySpan e.1 = .ok keySpan → (Node.map form es).valueSpan e.1 = .ok valueSpan →
      ∀ here : Context, here.path = ctx.path ++ [e.1] → ∀ m, Taken env fields e.1 e.2.2 m →
        Admits m e.2.2 here map (some keySpan) (some valueSpan)
  /-- A value that stands for a field of a record. -/
  standsFor : ∀ {name documented fields node ctx k key value},
    Admits (.typed (.record name documented fields)) node ctx (some k) key value → node.isMap = false →
      k.predicate.isNull = false → inv.AllowsAt key ∧ ∀ here : Context, here.path = ctx.path ++ [k.predicate] →
        ∀ m, Taken env fields k.predicate node m → Admits m node here (some k) key value
  item : ∀ {name types node ctx map key value}, Admits (.typed (.array name types)) node ctx map key value →
    ∀ parts, partsOf node = .ok parts → ∀ p ∈ parts, ∀ m, env.meaning ⟨p.1, types, none, none⟩ = .ok m →
      ∀ span, p.2 = .ok span → ∀ here : Context, here.path = ctx.path → Admits m p.1 here none none (some span)
  entry : ∀ {name types k node ctx map key value}, Admits (.typed (.listOrMap name types k)) node ctx map key value →
    ∀ l, (Listing.of node k.subject).2 = .ok l → ∀ e ∈ l.entries, ∀ asked map' m,
      env.meaning ⟨e.value, types, asked, map'⟩ = .ok m →
      ∀ keySpan valueSpan, l.idSpan e = .ok keySpan → l.valueSpan e = .ok valueSpan →
      ∀ here : Context, here.path = ctx.path ++ [e.key] → Admits m e.value here (some k) (some keySpan) (some valueSpan)

/-- Visits keep an invariant where a contract admits them, and keep their path. -/
def Contract.Visits (C : Contract env inv) (visit : Visit) : Prop := ∀ {m node ctx map key value a},
  C.Admits m node ctx map key value → inv.Around ctx a →
    Keeps inv a (visit m node ctx map key value) (inv.Beside ctx)

variable {C : Contract env inv}

/-! ## Records -/

theorem sourceHints_keeps {asHint : Node → Hint}
    (hhint : ∀ b, inv.Lasts a b → ∀ span n, inv.Lasts b (b.after (Walk.hint span (asHint n))))
    (node value) : Keeps inv a (sourceHints node value asHint) Any := by
  unfold sourceHints
  split
  · exact .forM fun b hb i _ => .lift_bind fun _ _ => .modify (hhint b hb _ _)
  · exact .modify (hhint a (inv.refl a) _ _)

theorem owners_setInterface (a : Analysis) (step : Nat) (i : Interface) :
    (a.after (Walk.setInterface step i)).owners = a.owners := by
  have howners : (a.steps.modify step fun s => { s with interface := i }).map (·.owner) = _ :=
    map_owner_modify a.steps step (g := id) fun _ => rfl
  exact Prod.ext rfl (howners.trans (modify_id _ _))

variable {fields : Fields} {ctx here : Context} {documented : Bool} {name node : Node} {mapKey : MapKey}

theorem takingHints_keeps (takes) {asHint : Except Fault (Node → Hint)}
    (hhint : ∀ h, asHint = .ok h → ∀ b, inv.Lasts a b → ∀ span n, inv.Lasts b (b.after (Walk.hint span (h n))))
    (child value) : Keeps inv a (takingHints takes child value asHint) Any :=
  .ite (.lift_bind fun h hh => sourceHints_keeps (hhint h hh) _ _) (.pure trivial)

theorem noteProcess_keeps (record k process : Node) (outer : Context) (named : List String) :
    Keeps inv a (noteProcess record k process outer named) Any :=
  .ite (.bind (.reported fun _ => Interface.ofProcess_placed _) fun _ _ _ _ => .lift_bind fun _ _ =>
    .modify (inv.same rfl rfl (owners_setInterface _ _ _))) (.pure trivial)

theorem afterField_keeps (hhere : inv.Around here a) (record k : Node) (m : Meaning) (child : Node)
    (value : Option Span) (outer : Context) (named : List String) :
    Keeps inv a (afterField record k m child value outer here named) Any := by
  refine .bind (takingHints_keeps _ (fun h hh c hc => ?_) child value) fun _ b hb _ =>
    .bind (takingHints_keeps _ (fun h hh c hc => ?_) child value) fun _ _ _ _ =>
      .bind (noteProcess_keeps _ _ _ _ _) fun _ _ _ _ => .pure trivial
  · obtain ⟨w, hw, rfl⟩ := map_eq_ok hh
    exact inv.outputSource (inv.around hhere hc rfl rfl) (workflow_of_theWorkflow hw)
  · obtain ⟨s, hs, rfl⟩ := map_eq_ok hh
    exact inv.stepSource (inv.around hhere (inv.trans hb hc) rfl rfl) (step_of_theStep hs)

variable {map : Option MapKey}

theorem visitMeaning_keeps (hvisit : C.Visits visit) {k child} (hkey : inv.AllowsAt key)
    (hadmits : ∀ m, Taken env fields k child m → C.Admits m child (ctx.enter k) map key value)
    (hctx : inv.Around ctx a) (record written named) : Keeps inv a (do
      classHint k (ctx.enter k) value
      let m? ← entryMeaning env record fields k child written key
      visitMeaning visit record k child ctx map key value named m?) Any := by
  have hclass : Keeps inv a (classHint k (ctx.enter k) value) Any := by
    refine .ite (.hint ?_) (.pure trivial)
    cases (ctx.enter k).requirements <;> rfl
  refine .bind hclass fun _ b hb _ => .bind (entryMeaning_keeps hkey _ _ _ _ _) fun m? c hc hm => ?_
  cases m? with
  | none => exact .pure trivial
  | some m =>
    have hvisited := hvisit (hadmits m (hm m rfl)) (inv.around hctx (inv.trans hb hc) rfl rfl)
    exact .bind hvisited fun _ _ _ hhere => afterField_keeps hhere.2 _ _ _ _ _ _ _

theorem visitField_keeps (hvisit : C.Visits visit)
    (h : C.Admits (.typed (.record name documented fields)) node ctx map key value) {entries}
    (hentries : recordEntries node map = some entries) {e} (he : e ∈ entries)
    (hhere : inv.Beside ctx here a) (named : List String) :
    Keeps inv a (visitField env visit name fields node here map key value named e) Any := by
  have hpath : (here.enter e.1).path = ctx.path ++ [e.1] := by rw [← hhere.1]; rfl
  unfold visitField enterField
  cases hnode : node.isMap with
  | true =>
    cases node with
    | map form es =>
      cases hentries
      obtain ⟨f, hf, rfl⟩ := mem_map.mp he
      simp only [if_true, bind_assoc, pure_bind]
      refine .lift_bind fun keySpan hkey => .lift_bind fun valueSpan hvalue => .bind (.hint rfl) fun _ b hb _ => ?_
      exact visitMeaning_keeps hvisit (Invariant.allowsAt_of_ordered (Node.keySpan_ordered _ _ _ hkey))
        (C.field h f hf keySpan valueSpan hkey hvalue _ hpath) (inv.around hhere.2 hb rfl rfl) _ _ _
    | _ => cases hnode
  | false =>
    obtain ⟨k, rfl, hnull, rfl⟩ : ∃ k, map = some k ∧ k.predicate.isNull = false ∧ e = (k.predicate, node) := by
      unfold recordEntries at hentries
      split at hentries
      · cases hnode
      · obtain ⟨k, hk, rfl⟩ := Option.map_eq_some_iff.mp hentries
        obtain ⟨hmap, hnull⟩ := Option.filter_eq_some_iff.mp hk
        exact ⟨k, hmap, by simpa using hnull, mem_singleton.mp he⟩
    obtain ⟨hkey, hadmits⟩ := C.standsFor h hnode hnull
    simp only [Bool.false_eq_true, if_false, pure_bind]
    exact visitMeaning_keeps hvisit hkey (hadmits _ hpath) hhere.2 _ _ _

theorem enterWorkflow_keeps (hctx : inv.Around ctx a) (name node : Node) :
    Keeps inv a (enterWorkflow name node ctx) (inv.Beside ctx) := by
  refine .ite ?_ (.pure ⟨rfl, hctx⟩)
  cases node with
  | map form es => exact .lift_bind fun w _ => .bind (.openWorkflow hctx w) fun _ _ _ hb => .pure ⟨rfl, hb⟩
  | _ => exact .throw _

theorem checkConnections_keeps (name ctx) : Keeps inv a (checkConnections name ctx) Any := by
  refine .ite (.get_bind ?_) (.pure trivial)
  cases a.workflows[ctx.workflow.getD 0]? with
  | some w => exact (Keeps.reported Workflow.connectionProblems_placed).imp fun _ _ _ _ => trivial
  | none => exact .pure trivial

theorem visitRecord_keeps (hvisit : C.Visits visit)
    (h : C.Admits (.typed (.record name documented fields)) node ctx map key value) (hctx : inv.Around ctx a) :
    Keeps inv a (visitRecord env visit name fields node ctx map key value) (inv.Beside ctx) := by
  unfold visitRecord
  cases hentries : recordEntries node map with
  | none => exact .pure ⟨rfl, hctx⟩
  | some entries =>
    refine .bind (enterWorkflow_keeps hctx name node) fun here b _ hhere => ?_
    have hdone : ∀ {c}, inv.Lasts b c → inv.Beside ctx here c := fun hc => ⟨hhere.1, inv.around hhere.2 hc rfl rfl⟩
    refine .bind (.discarded (.foldlM (R := fun _ => inv.Lasts b) (fun names c hc e he => ?_) (inv.refl b)))
      fun _ c hc _ => .bind (checkConnections_keeps name here) fun _ d hd _ => .pure (hdone (inv.trans hc hd))
    exact (visitField_keeps hvisit h hentries ((visitOrder_perm entries).mem_iff.mp he) (hdone hc) names).imp
      fun _ _ hlasts _ => inv.trans hc hlasts

/-! ## Lists and maps -/

variable {types : List CwlType}

theorem visitItems_keeps (hvisit : C.Visits visit)
    (h : C.Admits (.typed (.array name types)) node ctx map key value)
    (hctx : inv.Around ctx a) : Keeps inv a (visitItems env visit types node ctx) (inv.Beside ctx) := by
  refine .lift_bind fun parts hparts => .foldlM (R := inv.Beside ctx)
    (fun here b hhere p hp => .lift_bind fun m hm => .lift_bind fun span hspan => ?_) ⟨rfl, hctx⟩
  exact (hvisit (C.item h parts hparts p hp m hm span hspan here hhere.1) hhere.2).imp
    fun _ _ _ hafter => ⟨hafter.1.trans hhere.1, hafter.2⟩

theorem emptyHints_keeps (name node : Node) (hctx : inv.Around ctx a) (value : Option Span) :
    Keeps inv a (emptyHints name node ctx value) Any := by
  unfold emptyHints
  refine .ite (.pure trivial) (.ite (.hint rfl) (.ite ?_ (.ite ?_ (.pure trivial))))
  · cases ctx.step with
    | some step => exact .bind (.interfaceOf step) fun _ _ _ _ => .hint rfl
    | none => exact .pure trivial
  · cases hworkflow : ctx.workflow with
    | some workflow => exact .modify (inv.outputSource hctx hworkflow _ _)
    | none => exact .pure trivial

theorem entryHints_keeps (name : Node) (hctx : inv.Around ctx a) (l : Listing) (e : ListingEntry) :
    Keeps inv a (entryHints name ctx l e) Any := by
  unfold entryHints
  refine .ite (.pure trivial) (.ite (.lift_bind fun _ _ => .hint rfl)
    (.ite ?_ (.ite (.ite ?_ (.pure trivial)) (.pure trivial))))
  · cases hstep : ctx.step with
    | none => exact .pure trivial
    | some step =>
      refine .lift_bind fun _ _ => .bind (.interfaceOf step) fun _ b hb _ => .bind (.hint rfl) fun _ c hc _ => ?_
      have hlater := inv.around hctx (inv.trans hb hc) rfl rfl
      exact .ite (.lift_bind fun _ _ => .modify (inv.stepSource hlater hstep _ _)) (.pure trivial)
  · exact .lift_bind fun _ _ => .lift_bind fun _ hw => .modify (inv.outputSource hctx (workflow_of_theWorkflow hw) _ _)

theorem visitEntry_keeps (hvisit : C.Visits visit)
    (h : C.Admits (.typed (.listOrMap name types mapKey)) node ctx map key value) {l}
    (hl : (Listing.of node mapKey.subject).2 = .ok l) {e} (he : e ∈ l.entries)
    (hhere : inv.Beside ctx here a) : Keeps inv a (visitEntry env visit name types mapKey here l e) Any := by
  have hpath : (here.enter e.key).path = ctx.path ++ [e.key] := by rw [← hhere.1]; rfl
  refine .lift_bind fun m hm => .bind (Q := Any) ?_ fun _ b hb _ =>
    entryHints_keeps name (inv.around hhere.2 hb rfl rfl) l e
  have hinside : ∀ (inside : Context) b, inside.path = ctx.path ++ [e.key] → inv.Around inside b →
      Keeps inv b (visitValue visit name types mapKey l e m inside) Any := by
    intro inside b hinside hb
    refine .lift_bind fun keySpan hkey => .lift_bind fun valueSpan hspan => ?_
    have hvisited := hvisit (C.entry h l hl e he _ _ m hm keySpan valueSpan hkey hspan inside hinside) hb
    exact .ite (.lift_bind fun _ _ => .hint rfl) hvisited.discarded
  refine .ite (.throughStep hhere.2 e.key fun n b hb => ?_) ?_
  · exact hinside { here.enter e.key with step := some n } b hpath (inv.around hb (inv.refl b) rfl rfl)
  · exact hinside (here.enter e.key) a hpath (inv.around hhere.2 (inv.refl a) rfl rfl)

theorem visitListing_keeps (hvisit : C.Visits visit)
    (h : C.Admits (.typed (.listOrMap name types mapKey)) node ctx map key value) (hctx : inv.Around ctx a) :
    Keeps inv a (visitListing env visit name types mapKey node ctx value) (inv.Beside ctx) := by
  refine .bind (.reported fun _ => (Listing.of_placed node mapKey.subject).1) fun l b hb hl => ?_
  refine .lift_bind fun here hhere => ?_
  obtain ⟨requirements, rfl⟩ := enterListing_eq hhere
  have hbeside : ∀ {c}, inv.Lasts b c → inv.Beside ctx { ctx with requirements } c :=
    fun hc => ⟨rfl, inv.around hctx (inv.trans hb hc) rfl rfl⟩
  refine .bind (emptyHints_keeps name node (hbeside (inv.refl b)).2 value) fun _ c hc _ =>
    .bind (.forM fun d hd e he => ?_) fun _ d hd _ => .pure (hbeside (inv.trans hc hd))
  exact visitEntry_keeps hvisit h hl he (hbeside (inv.trans hc hd))

/-! ## All together -/

theorem visitOne_keeps (hvisit : C.Visits visit) : C.Visits (visitOne env visit) := by
  intro m node ctx map key value a h hctx
  cases hm : hasParts m with
  | false =>
    refine visitOne_leaf hm node hctx map (C.leaf h hm) ?_
    rintro text rfl
    exact C.expression h a
  | true =>
    unfold hasParts at hm
    split at hm
    · exact visitItems_keeps hvisit h hctx
    · exact visitListing_keeps hvisit h hctx
    · exact visitRecord_keeps hvisit h hctx
    · cases hm

theorem visitTo_keeps (C : Contract env inv) : ∀ depth, C.Visits (visitTo env depth)
  | 0 => fun _ _ => .throw _
  | depth + 1 => visitOne_keeps (visitTo_keeps C depth)

end

end Analysis
end CwlService
