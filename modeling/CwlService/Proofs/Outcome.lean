import CwlService.Fault

/-! # What computations give

A computation that may fail gives only results of some kind if its parts do. One that has a
state besides goes on where its first part ended, and ends there if that part fails. -/
namespace CwlService

section

variable {ε σ α β : Type} {x : ExceptT ε (StateM σ) α} {f : α → ExceptT ε (StateM σ) β} {s t : σ}

theorem run_bind {a} (h : x.run.run s = (.ok a, t)) : (x >>= f).run.run s = (f a).run.run t := by
  rw [ExceptT.run_bind, StateT.run_bind, h]
  rfl

theorem run_bind_error {e} (h : x.run.run s = (.error e, t)) : (x >>= f).run.run s = (.error e, t) := by
  rw [ExceptT.run_bind, StateT.run_bind, h]
  rfl

/-- Two ways to go on: as the first part failed, or with what it gave. -/
theorem run_bind_cases {P : Except ε β × σ → Prop} (herror : ∀ e t, x.run.run s = (.error e, t) → P (.error e, t))
    (hok : ∀ a t, x.run.run s = (.ok a, t) → P ((f a).run.run t)) : P ((x >>= f).run.run s) := by
  cases hrun : x.run.run s with
  | mk r t =>
    cases r with
    | error e =>
      rw [run_bind_error hrun]
      exact herror e t hrun
    | ok a =>
      rw [run_bind hrun]
      exact hok a t hrun

theorem run_map (x : ExceptT ε (StateM σ) α) (g : α → β) (s : σ) :
    (x >>= fun a => pure (g a)).run.run s = ((x.run.run s).1.map g, (x.run.run s).2) := by
  refine run_bind_cases (P := fun p => p = _) (fun e t hrun => ?_) fun a t hrun => ?_ <;> (rw [hrun]; rfl)

theorem of_run_bind {b u} (h : (x >>= f).run.run s = (.ok b, u)) :
    ∃ a t, x.run.run s = (.ok a, t) ∧ (f a).run.run t = (.ok b, u) := by
  revert h
  exact run_bind_cases (P := fun p => p = _ → _) (fun _ _ _ => nofun) fun a t hrun h => ⟨a, t, hrun, h⟩

theorem run_get_bind {g : σ → ExceptT ε (StateM σ) β} :
    ((get : ExceptT ε (StateM σ) σ) >>= g).run.run s = (g s).run.run s := rfl

theorem run_modify_bind {g : σ → σ} {h : PUnit → ExceptT ε (StateM σ) β} :
    ((modify g : ExceptT ε (StateM σ) PUnit) >>= h).run.run s = (h ⟨⟩).run.run (g s) := rfl

theorem run_lift_bind {a} :
    ((liftM (.ok a : Except ε α) : ExceptT ε (StateM σ) α) >>= f).run.run s = (f a).run.run s := rfl

end

/-- What may become of a state during work, and during more work after that. -/
structure Course (σ : Type) where
  Leads : σ → σ → Prop
  refl : ∀ s, Leads s s
  trans : ∀ {s t u : σ}, Leads s t → Leads t u → Leads s u

/-- Work that goes a course, whether or not it fails. -/
def Goes {ε σ α : Type} (c : Course σ) (x : ExceptT ε (StateM σ) α) : Prop := ∀ s, c.Leads s (x.run.run s).2

namespace Goes

variable {ε σ α β : Type} {c : Course σ} {x : ExceptT ε (StateM σ) α} {f : α → ExceptT ε (StateM σ) β}

theorem pure (a : α) : Goes c (Pure.pure a : ExceptT ε (StateM σ) α) := c.refl

theorem throw (e : ε) : Goes c (throw e : ExceptT ε (StateM σ) α) := c.refl

theorem get : Goes c (MonadState.get : ExceptT ε (StateM σ) σ) := c.refl

theorem lift (e : Except ε α) : Goes c (liftM e : ExceptT ε (StateM σ) α) := by
  intro s
  cases e <;> exact c.refl s

theorem bind (hx : Goes c x) (hf : ∀ a, Goes c (f a)) : Goes c (x >>= f) := by
  intro s
  have hs := hx s
  refine run_bind_cases (P := fun p => c.Leads s p.2) (fun e t hrun => ?_) fun a t hrun => ?_
  · rwa [hrun] at hs
  · rw [hrun] at hs
    exact c.trans hs (hf a t)

theorem map (g : α → β) (hx : Goes c x) : Goes c (g <$> x) := by
  rw [map_eq_pure_bind]
  exact hx.bind fun a => .pure (g a)

theorem ite {p : Prop} [Decidable p] {y} (hx : Goes c x) (hy : Goes c y) :
    Goes c (if p then x else y) := by
  split
  · exact hx
  · exact hy

end Goes

section

variable {ε α β : Type} {x : Except ε α}

theorem bind_eq_ok {f : α → Except ε β} {b} (h : (x >>= f) = .ok b) : ∃ a, x = .ok a ∧ f a = .ok b := by
  cases x with
  | error e => cases h
  | ok a => exact ⟨a, rfl, h⟩

theorem eq_ok_of_toOption {a} (h : x.toOption = some a) : x = .ok a := by
  cases x with
  | error e => cases h
  | ok b => exact congrArg _ (Option.some.inj h)

theorem map_eq_ok {f : α → β} {b} (h : x.map f = .ok b) : ∃ a, x = .ok a ∧ f a = b := by
  cases x with
  | error e => cases h
  | ok a => exact ⟨a, rfl, Except.ok.inj h⟩

end

theorem exists_of_isOk {α : Type} {x : Except Fault α} (h : x.isOk = true) : ∃ a, x = .ok a := by
  cases x with
  | error f => cases h
  | ok a => exact ⟨a, rfl⟩

/-- Every result is of some kind. -/
def Gives {α : Type} (P : α → Prop) (x : Except Fault α) : Prop := ∀ a, x = .ok a → P a

namespace Gives

variable {α β : Type} {P : α → Prop} {Q : β → Prop}

theorem pure {a} (h : P a) : Gives P (Pure.pure a) := by
  intro b hb
  cases hb
  exact h

theorem throw (f : Fault) : Gives P (throw f : Except Fault α) := by
  intro b hb
  cases hb

theorem bind {x} {f : α → Except Fault β} (hx : Gives P x) (hf : ∀ a, P a → Gives Q (f a)) : Gives Q (x >>= f) := by
  cases x with
  | error e => exact throw e
  | ok a => exact hf a (hx a rfl)

theorem throw_bind (f : Fault) (g : α → Except Fault β) : Gives Q (MonadExcept.throw f >>= g) := by
  intro b hb
  cases hb

theorem any (x : Except Fault α) : Gives (fun _ => True) x := fun _ _ => trivial

theorem map {x} {f : α → β} (hx : Gives P x) (hf : ∀ a, P a → Q (f a)) :
    Gives Q (x.map f) := by
  cases x with
  | error e => exact throw e
  | ok a => exact pure (hf a (hx a rfl))

theorem ite {c : Prop} [Decidable c] {x y} (hx : c → Gives P x) (hy : ¬c → Gives P y) :
    Gives P (if c then x else y) := by
  split
  · rename_i h; exact hx h
  · rename_i h; exact hy h

end Gives

/-- There is a result exactly if a condition holds, and then it is of some kind. -/
structure GivesIf {α : Type} (c : Prop) (P : α → Prop) (x : Except Fault α) : Prop where
  isOk_iff : x.isOk = true ↔ c
  gives : Gives P x

namespace GivesIf

variable {α β : Type} {c d : Prop} {P : α → Prop} {Q : β → Prop}

theorem pure {a} (h : P a) : GivesIf True P (Pure.pure a) :=
  ⟨⟨fun _ => trivial, fun _ => rfl⟩, .pure h⟩

theorem bind {x} {f : α → Except Fault β} (hx : GivesIf c P x) (hf : ∀ a, P a → GivesIf d Q (f a)) :
    GivesIf (c ∧ d) Q (x >>= f) := by
  refine ⟨?_, hx.gives.bind fun a ha => (hf a ha).gives⟩
  cases x with
  | error e =>
    constructor
    · intro h
      cases h
    · intro h
      cases hx.isOk_iff.mpr h.1
  | ok a =>
    have hc : c := hx.isOk_iff.mp rfl
    rw [and_iff_right hc]
    exact (hf a (hx.gives a rfl)).isOk_iff

end GivesIf

/-- Two computations give related results, or they fail alike. -/
inductive SameOutcome {α β : Type} (R : α → β → Prop) : Except Fault α → Except Fault β → Prop where
  | ok {a b} (h : R a b) : SameOutcome R (.ok a) (.ok b)
  | error (f) : SameOutcome R (.error f) (.error f)

namespace SameOutcome

variable {α β γ δ : Type} {R : α → β → Prop} {S : γ → δ → Prop}

theorem refl {R : α → α → Prop} (h : ∀ a, R a a) (x : Except Fault α) : SameOutcome R x x := by
  cases x with
  | ok a => exact .ok (h a)
  | error f => exact .error f

theorem map {x y} (h : SameOutcome R x y) {f : α → γ} {g : β → δ}
    (hfg : ∀ a b, R a b → S (f a) (g b)) : SameOutcome S (x.map f) (y.map g) := by
  cases h with
  | ok h => exact .ok (hfg _ _ h)
  | error f => exact .error f

theorem bind {x y} (h : SameOutcome R x y) {f : α → Except Fault γ} {g : β → Except Fault δ}
    (hfg : ∀ a b, R a b → SameOutcome S (f a) (g b)) : SameOutcome S (x >>= f) (y >>= g) := by
  cases h with
  | ok h => exact hfg _ _ h
  | error f => exact .error f

end SameOutcome
end CwlService
