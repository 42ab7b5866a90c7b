import CwlService.Proofs.Language.Created
import CwlService.Proofs.Outcome

/-! # The readings one after the other

Whoever follows a path of types from an entry of the dictionary follows its origin at the
same time, so the number of forward references on the path tells which reading made the
type at its end, or that there is only a name. -/
namespace CwlService.Language

/-! ## Paths through types and their origins -/

theorem Tells.target : ∀ {o t}, Tells o t → Tells o.target.2 t
  | .reference _ o, t, h => by
    cases h with
    | reference h =>
      have ht : Tells o.target.2 t := Tells.target h
      exact ht
  | .plain _, _, h | .simple _, _, h | .array _ _, _, h | .record _ _, _, h | .union _ _, _, h
  | .raw _, _, h => h

variable {t : CwlType} {o : Origin} {p : Nat} {fresh : Nat → Nat → Prop} {b b' m : Building} {name : String}
  {s : Schema} {last : Option Nat} {u : Unit} {R R' : Registry} {l : Language}

theorem Tells.step (h : Tells o t) (he : o.IsEnd) (m : Move) : (o.step m = none ∧ t.step m = none) ∨
      ∃ o' t', o.step m = some o' ∧ t.step m = some t' ∧ Tells o' t' := by
  cases h with
  | reference _ => exact absurd rfl (he _ _)
  | array hs =>
    cases m with
    | item i => exact hs.get? i
    | field name i => exact .inl ⟨rfl, rfl⟩
  | listOrMap hs =>
    cases m with
    | item i => exact hs.get? i
    | field name i => exact .inl ⟨rfl, rfl⟩
  | @record _ fs _ _ gs hf =>
    cases m with
    | item i => exact .inl ⟨rfl, rfl⟩
    | field name i =>
      simp only [Origin.step, CwlType.step, Fields.get?]
      rcases hf.lookup name with ⟨ho, ht⟩ | ⟨os, required, ts, ho, ht, hs⟩
      · exact .inl ⟨by rw [ho]; rfl, by rw [ht]; rfl⟩
      · rw [ho, ht]
        exact hs.get? i
  | plain | any | expression | enum | missing | union _ | raw => cases m <;> exact .inl ⟨rfl, rfl⟩

theorem CwlType.follow_cons (t : CwlType) (m : Move) (ms : List Move) :
    t.follow (m :: ms) = (t.step m).bind fun t' => t'.follow ms := by
  simp [CwlType.follow, List.foldlM_cons]

theorem Tells.follow (h : Tells o t) (ms : List Move) : (o.follow ms = none ∧ t.follow ms = none) ∨
      ∃ k o' t', o.follow ms = some (k, o') ∧ t.follow ms = some t' ∧ Tells o' t' := by
  induction ms generalizing o t with
  | nil => exact .inr ⟨o.target.1, o.target.2, t, rfl, rfl, h.target⟩
  | cons m ms ih =>
    rw [CwlType.follow_cons, Origin.follow]
    rcases h.target.step o.target_isEnd m with ⟨ho, ht⟩ | ⟨next, u, ho, ht, hnext⟩
    · exact .inl ⟨by rw [ho]; rfl, by rw [ht]; rfl⟩
    · rw [ho, ht]
      rcases ih hnext with ⟨ho', ht'⟩ | ⟨k, o', t', ho', ht', h'⟩
      · exact .inl ⟨by simp [ho'], by simp [ht']⟩
      · exact .inr ⟨o.target.1 + k, o', t', by simp [ho'], by simp [ht'], h'⟩

theorem Tells.unresolved_iff (h : Tells o t) (he : o.IsEnd) :
    (∃ name, t = .unresolved name) ↔ ∃ name, o = .raw name := by
  cases h with
  | reference _ => exact absurd rfl (he _ _)
  | raw => simp
  | plain | any | expression | enum | missing | array _ | listOrMap _ | record _ | union _ => simp

/-- Where a path from a type of the third reading ends: after `k` forward references at
what the reading before so many made, and at a name exactly after three. -/
theorem Tells.follow_created (h : Tells o t) (hc : Created fresh p o) (ms : List Move) :
    (o.follow ms = none ∧ t.follow ms = none) ∨
      ∃ k o' t', o.follow ms = some (k, o') ∧ t.follow ms = some t' ∧ Tells o' t' ∧ k ≤ p ∧
        Created fresh (p - k) o' ∧ o'.IsEnd ∧ ((∃ name, t' = .unresolved name) ↔ k = p) := by
  rcases h.follow ms with hnone | ⟨k, o', t', ho, ht, h'⟩
  · exact .inl hnone
  · obtain ⟨hk, hc', he⟩ := hc.follow ho
    refine .inr ⟨k, o', t', ho, ht, h', hk, hc', he, ?_⟩
    rw [h'.unresolved_iff he, hc'.raw_iff he]
    omega

/-! ## One reading -/

theorem Returns.then {α β : Type} {x} {f : α → Build β} {a c} (h : Returns x b a m)
    (h' : Returns (f a) m c b') : Returns (x >>= f) b c b' := by
  unfold Returns at h h' ⊢
  simp only [Bind.bind, StateT.bind, Except.bind, h]
  exact h'

theorem symbolsOf_returns {symbols} (h : Returns (symbolsOf name) b symbols b') :
    b' = b ∧ ∃ n, b.language.get? name = some (.enum n symbols) := by
  unfold symbolsOf at h
  have rest := h.get_bind
  split at rest
  · rename_i n ss hl
    obtain ⟨rfl, rfl⟩ := rest.pure
    exact ⟨rfl, n, hl⟩
  · exact rest.throw.elim

theorem symbolsOf_then {n symbols} (h : b.language.get? name = some (.enum n symbols)) :
    Returns (symbolsOf name) b symbols b := by
  have hg : Returns (get : Build Building) b b b := rfl
  unfold symbolsOf
  refine hg.then ?_
  rw [h]
  rfl

theorem definePlain_agrees (p) : ∀ names {R b b' u}, Agrees R b.language → Returns (definePlain names) b u b' →
    Agrees (R.putPlain p names) b'.language
  | [], R, b, b', u, hA, h => by
    rw [h.pure.2]
    exact hA
  | name :: rest, R, b, b', u, hA, h => by
    obtain ⟨t, m, hd, hrest⟩ := h.bind
    obtain ⟨rfl, rfl⟩ := define_returns hd
    exact definePlain_agrees p rest (hA.put name .plain rfl rfl) hrest

/-- What happens in a reading: types are made of the schema, and then plain types are
entered for the symbols that are listed. -/
theorem pass_cases (h : Returns (pass last s) b u b') : ∃ t m name symbols,
      Returns (build last none .null s) b t m ∧ m.language.get? "PrimitiveType" = some (.enum name symbols) ∧
      Returns (definePlain symbols) m () b' := by
  unfold pass at h
  obtain ⟨t, m, hb, hp⟩ := h.bind
  unfold definePrimitives at hp
  obtain ⟨symbols, m', hs, hplain⟩ := hp.bind
  obtain ⟨rfl, name, hl⟩ := symbolsOf_returns hs
  exact ⟨t, m', name, symbols, hb, hl, hplain⟩

/-- One reading with what it leaves behind: `m` is the state after the schema is read, and
`symbols` are the plain types that are entered then. -/
structure Reading (p : Nat) (last : Option Nat) (s : Schema) (R : Registry) (b m : Building)
    (symbols : List Node) (R' : Registry) (b' : Building) : Prop where
  built : ∃ t, Returns (build last none .null s) b t m
  listed : ∃ name, m.language.get? "PrimitiveType" = some (.enum name symbols)
  entered : Returns (definePlain symbols) m () b'
  registry : R' = (note p R s).2.putPlain p symbols
  agrees : Agrees R' b'.language

theorem pass_reading (p) (hA : Agrees R b.language) (h : Returns (pass last s) b u b') :
    ∃ m symbols R', Reading p last s R b m symbols R' b' ∧ Returns (trackPass p last s R) b R' b' := by
  obtain ⟨t, m, name, symbols, hb, hl, hplain⟩ := pass_cases h
  refine ⟨m, symbols, _, ⟨⟨t, hb⟩, ⟨name, hl⟩, hplain, rfl, ?_⟩, ?_⟩
  · exact definePlain_agrees p symbols (build_told p last s none .null hA hb).agrees hplain
  · have hs := symbolsOf_then hl
    exact hb.then (hs.then ((hs.then hplain).then rfl))

theorem Reading.returns {symbols} (h : Reading p last s R b m symbols R' b') :
    Returns (pass last s) b () b' := by
  obtain ⟨t, hb⟩ := h.built
  obtain ⟨name, hl⟩ := h.listed
  exact hb.then ((symbolsOf_then hl).then h.entered)

/-! ## All readings -/

/-- Where reading begins. -/
def start : Building := { language := ⟨[]⟩, log := [] }

theorem checkVersions_returns (h : Returns checkVersions b u b') : b'.language = b.language := by
  unfold checkVersions at h
  have rest := h.get_bind
  split at rest
  · dsimp only at rest
    split at rest
    · obtain ⟨_, _, hf, _⟩ := rest.bind
      exact hf.throw.elim
    · split at rest
      · exact rest.throw.elim
      · rw [rest.pure.2]
  · rw [rest.of_modify]

theorem lastDefinition_returns (h : Returns lastDefinition b last b') : b' = b := by
  unfold lastDefinition at h
  have rest := h.get_bind
  split at rest <;> exact rest.pure.2

theorem readings_cases {log} (h : ofSchema s = .ok (l, log)) : ∃ b₁ b₂ last b₃ b₄,
      Returns (pass none s) start () b₁ ∧ Returns (pass none s) b₁ () b₂ ∧
      Returns lastDefinition b₂ last b₂ ∧ Returns (pass last s) b₂ () b₃ ∧
      Returns checkVersions b₃ () b₄ ∧ b₃.language = l ∧ b₄.language = l := by
  unfold ofSchema at h
  obtain ⟨r, hr, h⟩ := map_eq_ok h
  have hret : Returns (readings s) start () r.2 := hr
  unfold readings at hret
  obtain ⟨_, b₁, h₁, hret⟩ := hret.bind
  obtain ⟨_, b₂, h₂, hret⟩ := hret.bind
  obtain ⟨last, b₂', hlast, hret⟩ := hret.bind
  obtain ⟨_, b₃, h₃, hcheck⟩ := hret.bind
  obtain rfl := lastDefinition_returns hlast
  have hl : r.2.language = l := (Prod.mk.inj h).1
  exact ⟨b₁, _, last, b₃, r.2, h₁, h₂, hlast, h₃, hcheck, (checkVersions_returns hcheck).symm.trans hl, hl⟩

theorem agrees_start : Agrees .empty start.language := fun _ => .inl ⟨rfl, rfl⟩

theorem track_cases {log} (h : ofSchema s = .ok (l, log)) :
    ∃ m₁ symbols₁ R₁ b₁ m₂ symbols₂ R₂ b₂ last m₃ symbols₃ R₃ b₃,
      Reading 1 none s .empty start m₁ symbols₁ R₁ b₁ ∧
      Reading 2 none s R₁ b₁ m₂ symbols₂ R₂ b₂ ∧ Returns lastDefinition b₂ last b₂ ∧
      Reading 3 last s R₂ b₂ m₃ symbols₃ R₃ b₃ ∧ b₃.language = l ∧ origins s = .ok (l, R₃) := by
  obtain ⟨b₁, b₂, last, b₃, b₄, h₁, h₂, hlast, h₃, hcheck, hl₃, hl₄⟩ := readings_cases h
  obtain ⟨m₁, symbols₁, R₁, hr₁, ht₁⟩ := pass_reading 1 agrees_start h₁
  obtain ⟨m₂, symbols₂, R₂, hr₂, ht₂⟩ := pass_reading 2 hr₁.agrees h₂
  obtain ⟨m₃, symbols₃, R₃, hr₃, ht₃⟩ := pass_reading 3 hr₂.agrees h₃
  refine ⟨m₁, symbols₁, R₁, b₁, m₂, symbols₂, R₂, b₂, last, m₃, symbols₃, R₃, b₃, hr₁, hr₂, hlast,
    hr₃, hl₃, ?_⟩
  have ht : Returns (track s) start R₃ b₄ :=
    ht₁.then (ht₂.then (hlast.then (ht₃.then (hcheck.then rfl))))
  have hrun : (track s).run { language := ⟨[]⟩, log := [] } = .ok (R₃, b₄) := ht
  rw [origins, hrun, ← hl₄]
  rfl

theorem Reading.finished {listed : String → Prop} {symbols}
    (h : Reading (p + 1) last s R b m symbols R' b') (hf : Finished fresh s listed p R)
    (hk : Known (p + 1) R s.references) (hfresh : fresh (p + 1) (p + 1))
    (hsymbols : ∀ n, (symbols.any fun m => m.isName n) = true → listed n)
    (hlisted : ∀ n, listed n → (symbols.any fun m => m.isName n) = true ∨ ∀ r, fresh r (p + 1)) :
    Finished fresh s listed (p + 1) R' := by
  rw [h.registry]
  exact hf.next hk hfresh hsymbols hlisted

theorem Reading.has_iff {symbols} (h : Reading p last s R b m symbols R' b') (n : String) :
    (∃ o, R' n = some o) ↔
      n ∈ s.definitions ∨ (symbols.any fun k => k.isName n) = true ∨ ∃ o, R n = some o := by
  obtain ⟨hother, hown⟩ := note_entry p s R n
  rw [h.registry, putPlain_apply]
  by_cases hlisted : (symbols.any fun k => k.isName n) = true
  · simp [hlisted]
  · rw [if_neg hlisted]
    by_cases hd : n ∈ s.definitions
    · obtain ⟨o, ho, _⟩ := hown hd
      simp [hd, ho]
    · rw [hother hd]
      simp [hd, hlisted]

theorem Agrees.isSome_iff (h : Agrees R l) (n) : (l.get? n).isSome ↔ ∃ o, R n = some o := by
  rcases h n with ⟨hR, hl⟩ | ⟨o, t, hR, hl, _⟩ <;> simp [hR, hl]

/-- Every name that a schema refers to is in the dictionary after the first reading. -/
def RefersToDefined (s : Schema) : Prop := ∀ b, Returns (pass none s) start () b →
  ∀ n ∈ s.references, (b.language.get? n).isSome

end CwlService.Language
