import CwlService.Proofs.Language.Origins
import CwlService.Proofs.Node.Table

/-! # Origins tell the types

A reading of a schema and `note` go the same way: what `note` gives has the shape of the
type that the reading makes, and the registry has the shape of the dictionary. So a path
through a type of the dictionary is a path through its origin and the other way round. -/
namespace CwlService.Language

open List

/-! ## Computations that return -/

/-- A part of a reading that ends with a result and a new state. -/
def Returns {α : Type} (x : Build α) (b : Building) (a : α) (b' : Building) : Prop :=
  x b = .ok (a, b')

namespace Returns

variable {α β : Type} {a c : α} {b b' : Building}

theorem bind {x} {f : β → Build α} (h : Returns (x >>= f) b c b') :
    ∃ a m, Returns x b a m ∧ Returns (f a) m c b' := by
  cases hx : x b with
  | error e => simp [Returns, Bind.bind, StateT.bind, Except.bind, hx] at h
  | ok r => exact ⟨r.1, r.2, hx, by simpa [Returns, Bind.bind, StateT.bind, Except.bind, hx] using h⟩

theorem pure (h : Returns (Pure.pure a : Build α) b c b') : c = a ∧ b' = b := by
  cases (show (Except.ok (a, b) : Except Fault _) = .ok (c, b') from h)
  exact ⟨rfl, rfl⟩

theorem throw {f} (h : Returns (throw f : Build α) b c b') : False := by
  simp [Returns, MonadExcept.throw, throwThe, MonadExceptOf.throw, StateT.lift, Bind.bind, Except.bind] at h

theorem get_bind {f : Building → Build α} (h : Returns (get >>= f) b c b') : Returns (f b) b c b' := h

theorem of_modify {f : Building → Building} {u : Unit} (h : Returns (modify f : Build Unit) b u b') : b' = f b := by
  cases (show (Except.ok ((), f b) : Except Fault _) = .ok (u, b') from h)
  rfl

theorem lift {e : Except Fault α} (h : Returns (liftM e : Build α) b a b') : e = .ok a ∧ b' = b := by
  cases e with
  | error f => simp [Returns, liftM, monadLift, MonadLift.monadLift, StateT.lift, Bind.bind,
      Except.bind] at h
  | ok c => simpa [Returns, liftM, monadLift, MonadLift.monadLift, StateT.lift, Bind.bind,
      Except.bind, Pure.pure, Except.pure, eq_comm] using h

end Returns

/-! ## Origins and types of one shape -/

mutual
/-- A type has the shape that its origin tells. -/
inductive Tells : Origin → CwlType → Prop
  | plain {r name} : Tells (.plain r) (.base name)
  | any {r} : Tells (.simple r) .any
  | expression {r} : Tells (.simple r) .expression
  | enum {r name symbols} : Tells (.simple r) (.enum name symbols)
  | missing {r} : Tells (.simple r) .missing
  | array {r os name ts} : TellsAll os ts → Tells (.array r os) (.array name ts)
  | listOrMap {r os name ts key} : TellsAll os ts → Tells (.array r os) (.listOrMap name ts key)
  | record {r fs name documented gs} :
      TellsFields fs gs → Tells (.record r fs) (.record name documented gs)
  | union {r os ts} : TellsAll os ts → Tells (.union r os) (.union ts)
  | raw {name} : Tells (.raw name) (.unresolved name)
  | reference {forward o t} : Tells o t → Tells (.reference forward o) t

inductive TellsAll : List Origin → List CwlType → Prop
  | nil : TellsAll [] []
  | cons {o t os ts} : Tells o t → TellsAll os ts → TellsAll (o :: os) (t :: ts)

inductive TellsFields : List (String × List Origin) → Fields → Prop
  | nil : TellsFields [] []
  | cons {name os required ts fs gs} : TellsAll os ts → TellsFields fs gs →
      TellsFields ((name, os) :: fs) ((name, required, ts) :: gs)
end

variable {o : Origin} {t u : CwlType} {ts : List CwlType} {os : List Origin} {gs gs' : Fields}
  {fs fs' : List (String × List Origin)} {required : Bool} {R : Registry} {name : Node} {b b' : Building}
  {key : Option MapKey} {last : Option Nat} {p : Parent} {parents ps : List Parent}

theorem TellsAll.single (h : Tells o t) : TellsAll [o] [t] :=
  .cons h .nil

theorem TellsAll.get? (h : TellsAll os ts) (i : Nat) :
    (os[i]? = none ∧ ts[i]? = none) ∨ ∃ o t, os[i]? = some o ∧ ts[i]? = some t ∧ Tells o t := by
  induction os generalizing ts i with
  | nil => cases h; simp
  | cons o os ih =>
    cases h with
    | cons hd tl =>
      cases i with
      | zero => exact .inr ⟨o, _, rfl, rfl, hd⟩
      | succ i => simpa using ih tl i

theorem TellsAll.forward (h : TellsAll os ts) : TellsAll (os.map (.reference true)) ts := by
  induction os generalizing ts with
  | nil => cases h; exact .nil
  | cons o os ih =>
    cases h with
    | cons hd tl => exact .cons (.reference hd) (ih tl)

section

variable (h : TellsFields fs gs)

include h

theorem TellsFields.append (h' : TellsFields fs' gs') :
    TellsFields (fs ++ fs') (gs ++ gs') := by
  induction fs generalizing gs with
  | nil => cases h; exact h'
  | cons f fs ih =>
    cases h with
    | cons hd tl => exact .cons hd (ih tl)

theorem TellsFields.forward :
    TellsFields (fs.map fun f => (f.1, f.2.map (.reference true))) gs := by
  induction fs generalizing gs with
  | nil => cases h; exact .nil
  | cons f fs ih =>
    cases h with
    | cons hd tl => exact .cons hd.forward (ih tl)

theorem TellsFields.names (name : String) :
    (fs.any fun f => f.1 == name) = gs.any fun g => g.1 == name := by
  induction fs generalizing gs with
  | nil => cases h; rfl
  | cons f fs ih =>
    cases h with
    | cons hd tl => simp [ih tl]

theorem TellsFields.lookup (name) :
    (fs.lookup name = none ∧ gs.lookup name = none) ∨
      ∃ os required ts, fs.lookup name = some os ∧ gs.lookup name = some (required, ts) ∧ TellsAll os ts := by
  induction fs generalizing gs with
  | nil => cases h; simp
  | cons f fs ih =>
    cases h with
    | @cons own os required ts _ gs hd tl =>
      by_cases hn : name = own
      · subst hn
        exact .inr ⟨os, required, ts, lookup_cons_self, lookup_cons_self, hd⟩
      · have hne : (name == own) = false := by simpa using hn
        simpa [lookup_cons, hne] using ih tl

theorem TellsFields.replace {name} (hn : TellsAll os ts) :
    TellsFields (fs.map fun g => if g.1 == name then (name, os) else g)
      (gs.map fun g => if g.1 == name then (name, required, ts) else g) := by
  induction fs generalizing gs with
  | nil => cases h; exact .nil
  | cons f fs ih =>
    cases h with
    | cons hd tl =>
      simp only [map_cons]
      split
      · exact .cons hn (ih tl)
      · exact .cons hd (ih tl)

theorem TellsFields.put {name} (hn : TellsAll os ts) :
    TellsFields (putOrigin fs (name, os)) (Fields.put gs (name, required, ts)) := by
  simp only [putOrigin, Fields.put, h.names]
  split
  · exact h.replace hn
  · exact h.append (.cons hn .nil)

theorem TellsFields.foldl_put (h' : TellsFields fs' gs') :
    TellsFields (fs'.foldl putOrigin fs) (gs'.foldl Fields.put gs) := by
  induction fs' generalizing gs' fs gs with
  | nil => cases h'; exact h
  | cons f fs' ih =>
    cases h' with
    | cons hd tl =>
      rw [foldl_cons, foldl_cons]
      exact ih (h.put hd) tl

end

/-! ## One reading -/

theorem types_put (l : Language) (name t) : (l.put name t).types = Table.set l.types name t := by
  unfold put Table.set
  split <;> rfl

theorem get?_put (l : Language) (name : Node) (t : CwlType) (n : String) :
    (l.put name t).get? n = if name.isName n then some t else l.get? n := by
  change Table.get? (l.put name t).types (.str n) = _
  rw [types_put, Table.get?_set, Node.same_text]
  rfl

/-- The registry tells the dictionary: the same names, and types of the shape that is told.
What stands under a name is one type that a reading made. -/
def Agrees (R : Registry) (l : Language) : Prop := ∀ n,
  (R n = none ∧ l.get? n = none) ∨
    ∃ o t, R n = some o ∧ l.get? n = some t ∧ Tells o t ∧ t.alternatives = [t] ∧
      o.reading?.isSome

theorem Agrees.put {l} (h : Agrees R l) (name : Node) (ht : Tells o t) (ha : t.alternatives = [t])
    (hr : o.reading?.isSome) : Agrees (R.put name o) (l.put name t) := by
  intro n
  rw [get?_put, Registry.put]
  split
  · exact .inr ⟨o, t, rfl, rfl, ht, ha, hr⟩
  · exact h n

theorem define_returns (h : Returns (define name t) b u b') : u = t ∧ b' = { b with
    language := b.language.put name t
    definitions := b.definitions + if name.isName versionsName then 1 else 0 } := by
  unfold define at h
  dsimp only at h
  split at h
  · obtain ⟨_, _, hf, _⟩ := h.bind
    exact hf.throw.elim
  · obtain ⟨_, m, hm, ret⟩ := h.bind
    obtain ⟨rfl, rfl⟩ := ret.pure
    exact ⟨rfl, hm.of_modify⟩

/-- What a reading makes has the shape that is told, and so has the dictionary after it. -/
structure Told (o : Origin) (R : Registry) (t : CwlType) (l : Language) : Prop where
  type : Tells o t
  alternatives : TellsAll o.alternatives t.alternatives
  agrees : Agrees R l

theorem told_define (hA : Agrees R b.language) (ht : Tells o t) (ho : o.alternatives = [o])
    (ha : t.alternatives = [t]) (hr : o.reading?.isSome) (h : Returns (define name t) b u b') :
    Told o (R.put name o) u b'.language := by
  obtain ⟨rfl, rfl⟩ := define_returns h
  exact ⟨ht, by rw [ho, ha]; exact .single ht, hA.put name ht ha hr⟩

theorem ref_returns {field name} (h : Returns (build last key field (.ref name)) b t b') :
    t = (b.language.get? name).getD (.unresolved name) ∧ b' = b := by
  simp only [build] at h
  have rest := h.get_bind
  split at rest
  · rename_i u hl
    obtain ⟨rfl, rfl⟩ := rest.pure
    exact ⟨by rw [hl]; rfl, rfl⟩
  · rename_i hl
    obtain ⟨rfl, rfl⟩ := rest.pure
    exact ⟨by rw [hl]; rfl, rfl⟩

theorem told_ref {reading name field} (hA : Agrees R b.language)
    (h : Returns (build last key field (.ref name)) b t b') :
    Told (R.refer reading name) R t b'.language := by
  obtain ⟨rfl, rfl⟩ := ref_returns h
  rcases hA name with ⟨hR, hl⟩ | ⟨o, u, hR, hl, hu, ha, _⟩
  · simp only [Registry.refer, hR, hl, Option.getD_none]
    exact ⟨.reference .raw, .single (.reference .raw), hA⟩
  · simp only [Registry.refer, hR, hl, Option.getD_some]
    exact ⟨.reference hu, by rw [ha]; exact .single (.reference hu), hA⟩

/-- A parent is what the dictionary has under its name. Of the versions it may have more
symbols than the dictionary tells. -/
theorem parent_returns {r} (h : Returns (parent? p) b r b') :
    b' = b ∧ ∃ name, p = .named name ∧ (r = b.language.get? name ∨
        ∃ n symbols all, b.language.get? name = some (.enum n symbols) ∧ r = some (.enum n all)) := by
  cases p with
  | fault f => exact h.throw.elim
  | named name =>
    simp only [parent?] at h
    have rest := h.get_bind
    split at rest
    · rename_i n symbols all hl _
      obtain ⟨rfl, rfl⟩ := rest.pure
      exact ⟨rfl, name, rfl, .inr ⟨n, symbols, _, hl, rfl⟩⟩
    · obtain ⟨rfl, rfl⟩ := rest.pure
      exact ⟨rfl, name, rfl, .inl rfl⟩

theorem inheritedFields_cases {fs} (h : Returns (inheritedFields (p :: ps)) b fs b') :
    ∃ name own others, p = .named name ∧ fs = own ++ others ∧ Returns (inheritedFields ps) b others b' ∧
      ((b.language.get? name = none ∧ own = []) ∨
        ∃ n documented, b.language.get? name = some (.record n documented own)) := by
  simp only [inheritedFields] at h
  obtain ⟨r, m, hp, next⟩ := h.bind
  obtain ⟨rfl, name, rfl, hr⟩ := parent_returns hp
  have joined : ∀ {own : Fields}, Returns (do return own ++ (← inheritedFields ps)) m fs b' →
      ∃ others, fs = own ++ others ∧ Returns (inheritedFields ps) m others b' := by
    intro own hown
    obtain ⟨others, _, hrest, ret⟩ := hown.bind
    obtain ⟨rfl, rfl⟩ := ret.pure
    exact ⟨others, rfl, hrest⟩
  split at next
  · obtain ⟨others, hfs, hrest⟩ := joined (by simpa only [pure_bind] using next)
    refine ⟨name, [], others, rfl, hfs, hrest, .inl ⟨?_, rfl⟩⟩
    rcases hr with hr | ⟨_, _, _, _, hr⟩
    · exact hr.symm
    · cases hr
  · rename_i n documented own
    obtain ⟨others, hfs, hrest⟩ := joined (by simpa only [pure_bind] using next)
    refine ⟨name, own, others, rfl, hfs, hrest, .inr ⟨n, documented, ?_⟩⟩
    rcases hr with hr | ⟨_, _, _, _, hr⟩
    · exact hr.symm
    · cases hr
  · obtain ⟨_, _, hown, _⟩ := next.bind
    exact hown.throw.elim

theorem inheritedFields_returns {fs} (h : Returns (inheritedFields ps) b fs b') : b' = b := by
  induction ps generalizing fs with
  | nil => exact h.pure.2
  | cons p ps ih =>
    obtain ⟨_, _, _, _, _, hrest, _⟩ := inheritedFields_cases h
    exact ih hrest

theorem inheritedFields_tells (reading) {fs} (hA : Agrees R b.language)
    (h : Returns (inheritedFields ps) b fs b') : TellsFields (ps.flatMap (R.fieldsOf reading)) fs := by
  induction ps generalizing fs with
  | nil =>
    rw [h.pure.1]
    exact .nil
  | cons p ps ih =>
    obtain ⟨name, own, others, rfl, rfl, hrest, hown⟩ := inheritedFields_cases h
    refine .append ?_ (ih hrest)
    rcases hA name with ⟨hR, hl⟩ | ⟨o, t, hR, hl, ht, _, hr⟩ <;> rw [hl] at hown
    · obtain ⟨_, rfl⟩ | ⟨_, _, hown⟩ := hown
      · simp only [Registry.fieldsOf, hR]
        exact .nil
      · cases hown
    · obtain ⟨hown, _⟩ | ⟨n, documented, hown⟩ := hown
      · cases hown
      cases hown
      cases ht with
      | record hf =>
        simp only [Registry.fieldsOf, hR]
        split
        · exact hf
        · exact hf.forward
      | reference _ => simp [Origin.reading?] at hr

/-- The symbols that an enumeration hands down, if there is one under a name. -/
def Building.symbols (b : Building) (name : String) : Option (List Node) :=
  match b.language.get? name with
  | some (.enum _ symbols) => some (if name == versionsName then b.versions.getD symbols else symbols)
  | _ => none

theorem parent_symbols {name r} (h : Returns (parent? (.named name)) b r b') :
    (r = none → b.language.get? name = none) ∧
      ∀ n more, r = some (.enum n more) → b.symbols name = some more := by
  simp only [parent?] at h
  have rest := h.get_bind
  split at rest
  · rename_i n symbols all hl hv
    obtain ⟨rfl, rfl⟩ := rest.pure
    refine ⟨by simp, ?_⟩
    rintro n' more h'
    cases h'
    simp [Building.symbols, hl, hv]
  · rename_i hne
    obtain ⟨rfl, rfl⟩ := rest.pure
    refine ⟨id, ?_⟩
    intro n more hl
    cases hv : b'.versions with
    | none => simp [Building.symbols, hl, hv]
    | some all => exact (hne n more all hl hv).elim

theorem withInherited_cases {p rest symbols r}
    (h : Returns (withInherited symbols (p :: rest)) b r b') : ∃ name, p = .named name ∧
      ((b.language.get? name = none ∧ Returns (withInherited symbols rest) b r b') ∨
        ∃ own more, symbols = .list own ∧ b.symbols name = some more ∧
          Returns (withInherited (.list (own ++ more)) rest) b r b') := by
  simp only [withInherited] at h
  obtain ⟨t, m, hp, h⟩ := h.bind
  obtain ⟨rfl, name, rfl, _⟩ := parent_returns hp
  obtain ⟨hnone, henum⟩ := parent_symbols hp
  refine ⟨name, rfl, ?_⟩
  cases t with
  | none => exact .inl ⟨hnone rfl, h⟩
  | some t =>
    cases t with
    | enum n more =>
      cases symbols with
      | list own => exact .inr ⟨own, more, rfl, henum n more rfl, h⟩
      | absent | parts _ => exact h.throw.elim
    | _ => exact h.throw.elim

theorem withInherited_returns {symbols r} (h : Returns (withInherited symbols ps) b r b') :
    b' = b := by
  induction ps generalizing symbols with
  | nil => exact h.pure.2
  | cons p ps ih =>
    obtain ⟨_, _, ⟨_, hrest⟩ | ⟨_, _, _, _, hrest⟩⟩ := withInherited_cases h <;> exact ih hrest

/-- What an enumeration defines: something of its own, or its symbols and those that it inherits. The last definition
of the versions shows only those that are published. -/
theorem enum_returns {field symbols}
    (h : Returns (build last key field (.enum name parents symbols)) b t b') :
    ∃ m u, Returns (define name u) m t b' ∧ m.language = b.language ∧
      (m = b ∧ (u = .any ∧ name.isName "Any" = true ∨ u = .expression ∧ name.isName "Expression" = true) ∨
        ((name.isName "Any" || name.isName "Expression") = false ∧ ∃ inherited all,
          Returns (withInherited symbols parents) b inherited b ∧ allSymbols inherited = .ok all ∧
          (m = b ∧ u = .enum name all ∨ m = { b with versions := some all } ∧ u = .enum name (published all) ∧
            name.isName versionsName = true ∧ last = some (b.definitions + 1)))) := by
  simp only [build] at h
  split at h
  · rename_i hname
    exact ⟨b, .any, h, rfl, .inl ⟨rfl, .inl ⟨rfl, hname⟩⟩⟩
  rename_i hany
  split at h
  · rename_i hname
    exact ⟨b, .expression, h, rfl, .inl ⟨rfl, .inr ⟨rfl, hname⟩⟩⟩
  rename_i hexpression
  obtain ⟨inherited, m₁, hw, h₁⟩ := h.bind
  obtain ⟨all, m₂, ha, h₂⟩ := h₁.bind
  obtain rfl := withInherited_returns hw
  obtain ⟨hall, rfl⟩ := ha.lift
  have h₃ := h₂.get_bind
  have hplain : (name.isName "Any" || name.isName "Expression") = false := by simp [hany, hexpression]
  split at h₃
  · rename_i hlast
    rw [Bool.and_eq_true, beq_iff_eq] at hlast
    obtain ⟨_, m, hm, hd⟩ := h₃.bind
    obtain rfl := hm.of_modify
    exact ⟨_, _, hd, rfl, .inr ⟨hplain, inherited, all, hw, hall, .inr ⟨rfl, rfl, hlast⟩⟩⟩
  · exact ⟨_, _, h₃, rfl, .inr ⟨hplain, inherited, all, hw, hall, .inl ⟨rfl, rfl⟩⟩⟩

theorem told_enum {reading field symbols} (hA : Agrees R b.language)
    (h : Returns (build last key field (.enum name parents symbols)) b t b') :
    Told (.simple reading) (R.put name (.simple reading)) t b'.language := by
  obtain ⟨m, u, hd, hl, hu⟩ := enum_returns h
  rw [← hl] at hA
  rcases hu with ⟨-, ⟨rfl, _⟩ | ⟨rfl, _⟩⟩ | ⟨_, _, _, _, _, ⟨_, rfl⟩ | ⟨_, rfl, _⟩⟩
  · exact told_define hA .any rfl rfl rfl hd
  · exact told_define hA .expression rfl rfl rfl hd
  · exact told_define hA .enum rfl rfl rfl hd
  · exact told_define hA .enum rfl rfl rfl hd

theorem field_returns {type rest fs}
    (h : Returns (buildFields last (.field name key type :: rest)) b fs b') :
    ∃ t m n others, Returns (build last key name type) b t m ∧
      Returns (buildFields last rest) m others b' ∧ name.text? = some n ∧
      fs = (n, !type.allowsNull, t.alternatives) :: others := by
  simp only [buildFields] at h
  obtain ⟨t, m, ht, next⟩ := h.bind
  split at next
  · obtain ⟨_, _, hf, _⟩ := next.bind
    exact hf.throw.elim
  obtain ⟨others, m', hothers, ret⟩ := next.bind
  split at ret
  · rename_i n hn
    obtain ⟨rfl, rfl⟩ := ret.pure
    exact ⟨t, m, n, others, ht, hothers, hn, rfl⟩
  · exact ret.throw.elim

mutual
theorem build_told (reading last) : ∀ s key field {R b b' t}, Agrees R b.language →
      Returns (build last key field s) b t b' → Told (note reading R s).1 (note reading R s).2 t b'.language
  | .ref name, key, field, R, b, b', t, hA, h => told_ref hA h
  | .union alternatives, key, field, R, b, b', t, hA, h => by
    simp only [build] at h
    obtain ⟨ts, m, hts, ret⟩ := h.bind
    obtain ⟨rfl, rfl⟩ := ret.pure
    obtain ⟨hall, hA'⟩ := buildAll_told reading last alternatives key field hA hts
    exact ⟨.union hall, hall, hA'⟩
  | .array items, key, field, R, b, b', t, hA, h => by
    simp only [build] at h
    obtain ⟨u, m, hu, rest⟩ := h.bind
    obtain ⟨_, hall, hA'⟩ := build_told reading last items none .null hA hu
    cases key with
    | none =>
      obtain ⟨rfl, rfl⟩ := rest.pure
      exact ⟨.array hall, .single (.array hall), hA'⟩
    | some k =>
      obtain ⟨rfl, rfl⟩ := rest.pure
      exact ⟨.listOrMap hall, .single (.listOrMap hall), hA'⟩
  | .enum name parents symbols, key, field, R, b, b', t, hA, h => told_enum hA h
  | .record name documented parents fields, key, field, R, b, b', t, hA, h => by
    simp only [build] at h
    obtain ⟨inherited, m, hi, rest⟩ := h.bind
    have hinherited := inheritedFields_tells reading hA hi
    obtain rfl := inheritedFields_returns hi
    obtain ⟨own, m', ho, rest⟩ := rest.bind
    obtain ⟨hown, hA'⟩ := buildFields_told reading last fields hA ho
    exact told_define hA' (.record (TellsFields.foldl_put .nil (hinherited.append hown)))
      rfl rfl rfl rest
  | .unknown data, key, field, R, b, b', t, hA, h => by
    simp only [build] at h
    obtain ⟨_, m, hm, ret⟩ := h.bind
    obtain ⟨rfl, rfl⟩ := ret.pure
    rw [hm.of_modify]
    exact ⟨.missing, .single .missing, hA⟩
  | .fault f, key, field, R, b, b', t, hA, h => by
    simp only [build] at h
    exact h.throw.elim

theorem buildAll_told (reading : Nat) (last : Option Nat) : ∀ ss key field {R b b' ts},
      Agrees R b.language → Returns (buildAll last key field ss) b ts b' →
      TellsAll (noteAll reading R ss).1 ts ∧ Agrees (noteAll reading R ss).2 b'.language
  | [], key, field, R, b, b', ts, hA, h => by
    simp only [buildAll] at h
    obtain ⟨rfl, rfl⟩ := h.pure
    exact ⟨.nil, hA⟩
  | s :: rest, key, field, R, b, b', ts, hA, h => by
    simp only [buildAll] at h
    obtain ⟨t, m, ht, next⟩ := h.bind
    obtain ⟨us, m', hus, ret⟩ := next.bind
    obtain ⟨rfl, rfl⟩ := ret.pure
    obtain ⟨hs, _, hA'⟩ := build_told reading last s key field hA ht
    obtain ⟨hall, hA''⟩ := buildAll_told reading last rest key field hA' hus
    exact ⟨.cons hs hall, hA''⟩

theorem buildFields_told (reading last) : ∀ fs {R b b' gs}, Agrees R b.language →
      Returns (buildFields last fs) b gs b' →
      TellsFields (noteFields reading R fs).1 gs ∧ Agrees (noteFields reading R fs).2 b'.language
  | [], R, b, b', gs, hA, h => by
    simp only [buildFields] at h
    obtain ⟨rfl, rfl⟩ := h.pure
    exact ⟨.nil, hA⟩
  | .field name key type :: rest, R, b, b', gs, hA, h => by
    obtain ⟨t, m, n, others, ht, hothers, hn, rfl⟩ := field_returns h
    obtain ⟨_, hall, hA'⟩ := build_told reading last type key name hA ht
    obtain ⟨hfields, hA''⟩ := buildFields_told reading last rest hA' hothers
    refine ⟨?_, hA''⟩
    simp only [noteFields, hn]
    exact .cons hall hfields
  | .fault f :: rest, R, b, b', gs, hA, h => by
    simp only [buildFields] at h
    exact h.throw.elim
end

end CwlService.Language
