import CwlService.Proofs.Language.Passes
import Mathlib.Tactic.Choose

/-! # Every reading finds the same symbols

Where types extend only types that are defined earlier, the symbols of an enumeration
depend on nothing that the reading before has left: two readings of one schema, whatever
they begin with, find the same symbols. So every reading lists the same plain types. The
versions need care. In the last reading the dictionary does not show all of them, but what
extends them takes over all, and it does so only if their last definition is counted
right. -/
namespace CwlService.Language

open List

variable {b b' c m : Building} {last last' : Option Nat} {left p : Nat} {name : Node}
  {t u : CwlType} {n : String} {all : List Node} {parents : List Parent} {seen : List String} {s : Schema}
  {R R' : Registry}

/-! ## One definition -/

/-- How often names define the versions. -/
def versionsIn (names : List String) : Nat := names.count versionsName

/-- The versions are found only at their last definition, and `left` more are to come. -/
structure Counted (last : Option Nat) (b : Building) (left : Nat) : Prop where
  found : ∀ all, b.versions = some all → ∃ e, last = some e ∧ e ≤ b.definitions
  coming : ∀ e, last = some e → b.definitions + left ≤ e

theorem Counted.unfound (h : Counted last b left) (hleft : 0 < left) : b.versions = none := by
  cases hv : b.versions with
  | none => rfl
  | some all =>
    obtain ⟨e, he, hle⟩ := h.found all hv
    have := h.coming e he
    omega

/-- A type was defined under a name; if it hands down symbols, they were `found`. -/
structure Defines (last : Option Nat) (name : Node) (found : Option (List Node))
    (b b' : Building) : Prop where
  own : ∀ n, name.isName n = true → (b'.language.get? n).isSome ∧ b'.symbols n = found
  others : ∀ n, name.isName n = false →
    b'.language.get? n = b.language.get? n ∧ b'.symbols n = b.symbols n
  definitions : b'.definitions = b.definitions + versionsIn name.text?.toList
  counted : ∀ left, Counted last b (versionsIn name.text?.toList + left) → Counted last b' left

theorem versionsIn_text (name : Node) :
    versionsIn name.text?.toList = if name.isName versionsName then 1 else 0 := by
  cases name <;> simp [versionsIn, Node.isName, Node.text?, count_singleton]

section

variable (h : Returns (define name t) b u b')

include h

theorem define_others (hn : name.isName n = false) :
    b'.language.get? n = b.language.get? n ∧ b'.symbols n = b.symbols n := by
  obtain ⟨-, rfl⟩ := define_returns h
  have hget : (b.language.put name t).get? n = b.language.get? n := by rw [get?_put, if_neg (by simp [hn])]
  exact ⟨hget, by simp only [Building.symbols, hget]⟩

theorem define_own (hn : name.isName n = true) :
    b'.language.get? n = some t := by
  obtain ⟨-, rfl⟩ := define_returns h
  exact (get?_put _ _ _ _).trans (if_pos hn)

theorem define_definitions :
    b'.versions = b.versions ∧ b'.definitions = b.definitions + versionsIn name.text?.toList := by
  obtain ⟨-, rfl⟩ := define_returns h
  exact ⟨rfl, by rw [versionsIn_text]⟩

theorem define_counted
    (hc : Counted last b (versionsIn name.text?.toList + left)) : Counted last b' left := by
  obtain ⟨hv, hd⟩ := define_definitions h
  refine ⟨?_, ?_⟩
  · intro all hall
    obtain ⟨e, he, hle⟩ := hc.found all (hv ▸ hall)
    exact ⟨e, he, by omega⟩
  · intro e he
    have := hc.coming e he
    omega

theorem define_plainly (ht : ∀ n symbols, t ≠ .enum n symbols) :
    Defines last name none b b' where
  own n hn := by
    have hget := define_own h hn
    refine ⟨by rw [hget]; rfl, ?_⟩
    unfold Building.symbols
    rw [hget]
    split
    · rename_i m symbols he
      exact (ht m symbols (Option.some.inj he)).elim
    · rfl
  others _ hn := define_others h hn
  definitions := (define_definitions h).2
  counted _ hc := define_counted h hc

end

theorem define_enum (h : Returns (define name (.enum name all)) b u b')
    (hc : Counted last b (versionsIn name.text?.toList + left)) : Defines last name (some all) b b' where
  own n hn := by
    have hget := define_own h hn
    refine ⟨by rw [hget]; rfl, ?_⟩
    simp only [Building.symbols, hget, Option.some.injEq]
    split
    · rename_i hversions
      -- a definition of the versions is still to come, so they are not found yet
      obtain rfl := eq_of_beq hversions
      rw [versionsIn_text, if_pos hn] at hc
      rw [(define_definitions h).1, hc.unfound (by omega)]
      rfl
    · rfl
  others _ hn := define_others h hn
  definitions := (define_definitions h).2
  counted _ hc := define_counted h hc

/-- The last definition of the versions, which keeps all of them beside those it shows. -/
theorem define_versions {shown} (hname : name.isName versionsName = true)
    (h : Returns (define name (.enum name shown)) { b with versions := some all } u b') :
    Defines (some (b.definitions + 1)) name (some all) b b' := by
  obtain ⟨hv, hd⟩ := define_definitions h
  have hone : versionsIn name.text?.toList = 1 := by rw [versionsIn_text, if_pos hname]
  have honly : ∀ n, name.isName n = true → n = versionsName := by
    intro n hn
    obtain ⟨_, rfl⟩ := Node.isName_iff.mp hname
    exact (eq_of_beq hn).symm
  constructor
  · intro n hn
    obtain rfl := honly n hn
    have hget := define_own h hn
    have hall : b'.versions = some all := hv
    refine ⟨by rw [hget]; rfl, ?_⟩
    simp [Building.symbols, hget, hall]
  · intro n hn
    obtain ⟨hget, hsymbols⟩ := define_others h hn
    refine ⟨hget, hsymbols.trans ?_⟩
    have hne : (n == versionsName) = false := by
      rw [beq_eq_false_iff_ne]
      rintro rfl
      rw [hname] at hn
      cases hn
    simp [Building.symbols, hne]
  · exact hd
  · intro left hc
    have hd' : b'.definitions = b.definitions + 1 := hd.trans (by rw [hone])
    refine ⟨fun _ _ => ⟨_, rfl, by omega⟩, ?_⟩
    intro e he
    have := hc.coming e he
    omega

/-- What an enumeration finds: its own symbols and those of its parents. -/
def Finds (b : Building) (name : Node) (parents : List Parent) (symbols : Symbols)
    (found : Option (List Node)) : Prop :=
  if name.isName "Any" || name.isName "Expression" then found = none
  else ∃ inherited all, Returns (withInherited symbols parents) b inherited b ∧
    allSymbols inherited = .ok all ∧ found = some all

theorem enum_defines {key field symbols} (hc : Counted last b (versionsIn name.text?.toList + left))
    (h : Returns (build last key field (.enum name parents symbols)) b t b') :
    ∃ found, Finds b name parents symbols found ∧ Defines last name found b b' := by
  obtain ⟨m, u, hd, -, ⟨rfl, hu⟩ | ⟨hplain, inherited, all, hw, hall, hu⟩⟩ := enum_returns h
  · refine ⟨none, ?_, ?_⟩
    · rcases hu with ⟨_, hname⟩ | ⟨_, hname⟩ <;> simp [Finds, hname]
    · rcases hu with ⟨rfl, _⟩ | ⟨rfl, _⟩ <;> exact define_plainly hd nofun
  · refine ⟨some all, ?_, ?_⟩
    · rw [Finds, if_neg (by simp [hplain])]
      exact ⟨inherited, all, hw, hall, rfl⟩
    · rcases hu with ⟨rfl, rfl⟩ | ⟨rfl, rfl, hversions, rfl⟩
      · exact define_enum hd hc
      · exact define_versions hversions hd

/-! ## Readings side by side -/

section

variable {ι : Type} {last : ι → Option Nat} {b b' : ι → Building} {found : ι → Option (List Node)}

/-- Readings have found the same symbols under names that all of them have defined. -/
def SameSymbols (seen : List String) (b : ι → Building) : Prop := ∀ n ∈ seen, ∀ i,
  ((b i).language.get? n).isSome ∧ ∀ j, (b i).symbols n = (b j).symbols n

theorem SameSymbols.defines (h : SameSymbols seen b) (hd : ∀ i, Defines (last i) name (found i) (b i) (b' i))
    (hfound : ∀ i j, found i = found j) : SameSymbols (seen ++ name.text?.toList) b' := by
  intro n hn i
  by_cases hname : name.isName n = true
  · have hown := fun i => (hd i).own n hname
    exact ⟨(hown i).1, fun j => by rw [(hown i).2, (hown j).2, hfound i j]⟩
  · have hothers := fun i => (hd i).others n (by simpa using hname)
    have hseen : n ∈ seen := by
      rcases mem_append.mp hn with hn | hn
      · exact hn
      · exact absurd (Node.mem_text?.mp hn) hname
    rw [(hothers i).1]
    refine ⟨(h n hseen i).1, fun j => ?_⟩
    rw [(hothers i).2, (hothers j).2]
    exact (h n hseen i).2 j

variable {i j : ι}

theorem SameSymbols.withInherited (h : SameSymbols seen b) {symbols r r' c c'}
    (hseen : Schema.areSeen seen parents = true)
    (hi : Returns (withInherited symbols parents) (b i) r c)
    (hj : Returns (withInherited symbols parents) (b j) r' c') : r = r' := by
  induction parents generalizing symbols with
  | nil => rw [hi.pure.1, hj.pure.1]
  | cons p rest ih =>
    obtain ⟨name, rfl, his⟩ := withInherited_cases hi
    obtain ⟨_, hname, hjs⟩ := withInherited_cases hj
    cases hname
    simp only [Schema.areSeen, all_cons, Bool.and_eq_true, contains_iff_mem] at hseen
    rcases his with ⟨hnone, _⟩ | ⟨own, more, rfl, hmore, hi'⟩
    · simpa [hnone] using (h name hseen.1 i).1
    rcases hjs with ⟨hnone, _⟩ | ⟨_, more', hown, hmore', hj'⟩
    · simpa [hnone] using (h name hseen.1 j).1
    cases hown
    have hsame := (h name hseen.1 i).2 j
    rw [hmore, hmore'] at hsame
    cases hsame
    exact ih hseen.2 hi' hj'

theorem SameSymbols.finds {symbols} (h : SameSymbols seen b)
    (hseen : Schema.areSeen seen parents = true)
    (hfinds : ∀ i, Finds (b i) name parents symbols (found i)) (i j : ι) : found i = found j := by
  have hi := hfinds i
  have hj := hfinds j
  unfold Finds at hi hj
  split at hi
  · rename_i hplain
    rw [if_pos hplain] at hj
    rw [hi, hj]
  · rename_i hplain
    rw [if_neg hplain] at hj
    obtain ⟨inherited, all, hw, hall, heq⟩ := hi
    obtain ⟨inherited', all', hw', hall', heq'⟩ := hj
    obtain rfl := h.withInherited hseen hw hw'
    cases hall.symm.trans hall'
    rw [heq, heq']

/-- What readings of a part of the schema that defines `names` have in common. -/
structure Alike (seen names : List String) (last : ι → Option Nat) (left : Nat) (b b' : ι → Building) : Prop where
  same : SameSymbols (seen ++ names) b'
  definitions : ∀ i, (b' i).definitions = (b i).definitions + versionsIn names
  counted : ∀ i, Counted (last i) (b' i) left

theorem versionsIn_append (names more : List String) :
    versionsIn (names ++ more) = versionsIn names + versionsIn more := count_append

theorem Alike.refl (h : SameSymbols seen b) (hc : ∀ i, Counted (last i) (b i) (0 + left)) :
    Alike seen [] last left b b :=
  ⟨by simpa using h, fun _ => rfl, by simpa using hc⟩

theorem Alike.trans {names more} {b'' : ι → Building}
    (h : Alike seen names last (versionsIn more + left) b b')
    (h' : Alike (seen ++ names) more last left b' b'') :
    Alike seen (names ++ more) last left b b'' where
  same := by simpa using h'.same
  definitions i := by rw [h'.definitions, h.definitions, versionsIn_append, Nat.add_assoc]
  counted := h'.counted

theorem Alike.defines (h : SameSymbols seen b) (hc : ∀ i, Counted (last i) (b i) (versionsIn name.text?.toList + left))
    (hd : ∀ i, Defines (last i) name (found i) (b i) (b' i)) (hfound : ∀ i j, found i = found j) :
    Alike seen name.text?.toList last left b b' :=
  ⟨h.defines hd hfound, fun i => (hd i).definitions, fun i => (hd i).counted left (hc i)⟩

end

mutual
theorem build_alike {ι : Type} {last : ι → Option Nat} :
    ∀ s {seen key field left} {b b' : ι → Building} {t : ι → CwlType},
    s.extendsEarlier seen = true → SameSymbols seen b →
    (∀ i, Counted (last i) (b i) (versionsIn s.definitions + left)) →
    (∀ i, Returns (build (last i) key field s) (b i) (t i) (b' i)) → Alike seen s.definitions last left b b'
  | .ref name => fun _ h hc hr => by
    obtain rfl := funext fun i => (ref_returns (hr i)).2
    exact .refl h hc
  | .union alternatives => fun he h hc hr => by
    simp only [build] at hr
    choose ts m hr ret using fun i => (hr i).bind
    obtain rfl := funext fun i => (ret i).pure.2
    exact buildAll_alike alternatives he h hc hr
  | .array items => fun he h hc hr => by
    simp only [build] at hr
    choose u m hr ret using fun i => (hr i).bind
    have hsame := build_alike items he h hc hr
    split at ret
    · rwa [funext fun i => (ret i).pure.2]
    · rwa [funext fun i => (ret i).pure.2]
  | .enum name parents symbols => fun he h hc hr => by
    choose found hfound hd using fun i => enum_defines (hc i) (hr i)
    exact .defines h hc hd (h.finds he hfound)
  | .record name documented parents fields => fun he h hc hr => by
    simp only [build] at hr
    choose _ m₁ hi hrest using fun i => (hr i).bind
    choose _ m₂ hown hd using fun i => (hrest i).bind
    obtain rfl := funext fun i => inheritedFields_returns (hi i)
    simp only [Schema.extendsEarlier, Bool.and_eq_true] at he
    simp only [Schema.definitions, versionsIn_append, Nat.add_assoc] at hc
    have hfields := buildFields_alike fields he.2 h hc hown
    exact hfields.trans (.defines hfields.same hfields.counted (fun i => define_plainly (hd i) nofun) fun _ _ => rfl)
  | .unknown data => fun _ h hc hr => by
    simp only [build] at hr
    choose _ m hm ret using fun i => (hr i).bind
    obtain rfl := funext fun i => (ret i).pure.2
    obtain rfl := funext fun i => (hm i).of_modify
    have hsame := Alike.refl h hc
    exact ⟨hsame.same, hsame.definitions, fun i => ⟨(hsame.counted i).found, (hsame.counted i).coming⟩⟩
  | .fault f => fun _ h hc hr => ⟨fun n hn i => (hr i).throw.elim, fun i => (hr i).throw.elim,
    fun i => (hr i).throw.elim⟩

theorem buildAll_alike {ι : Type} {last : ι → Option Nat} :
    ∀ ss {seen key field left} {b b' : ι → Building} {ts : ι → List CwlType},
    Schema.extendEarlier seen ss = true → SameSymbols seen b →
    (∀ i, Counted (last i) (b i) (versionsIn (Schema.definitionsAll ss) + left)) →
    (∀ i, Returns (buildAll (last i) key field ss) (b i) (ts i) (b' i)) →
    Alike seen (Schema.definitionsAll ss) last left b b'
  | [] => fun _ h hc hr => by
    obtain rfl := funext fun i => (hr i).pure.2
    exact .refl h hc
  | s :: rest => fun he h hc hr => by
    simp only [buildAll] at hr
    choose _ m hr hrest using fun i => (hr i).bind
    choose _ _ hrest ret using fun i => (hrest i).bind
    obtain rfl := funext fun i => (ret i).pure.2
    simp only [Schema.extendEarlier, Bool.and_eq_true] at he
    simp only [Schema.definitionsAll, versionsIn_append, Nat.add_assoc] at hc
    have hs := build_alike s he.1 h hc hr
    exact hs.trans (buildAll_alike rest he.2 hs.same hs.counted hrest)

theorem buildFields_alike {ι : Type} {last : ι → Option Nat} :
    ∀ fs {seen left} {b b' : ι → Building} {own : ι → Fields},
    Schema.extendEarlierIn seen fs = true → SameSymbols seen b →
    (∀ i, Counted (last i) (b i) (versionsIn (Schema.definitionsIn fs) + left)) →
    (∀ i, Returns (buildFields (last i) fs) (b i) (own i) (b' i)) →
    Alike seen (Schema.definitionsIn fs) last left b b'
  | [] => fun _ h hc hr => by
    obtain rfl := funext fun i => (hr i).pure.2
    exact .refl h hc
  | .fault f :: rest => fun _ h hc hr =>
    ⟨fun n hn i => (hr i).throw.elim, fun i => (hr i).throw.elim, fun i => (hr i).throw.elim⟩
  | .field name key type :: rest => fun he h hc hr => by
    choose _ m _ _ hr hrest _ using fun i => field_returns (hr i)
    simp only [Schema.extendEarlierIn, Bool.and_eq_true] at he
    simp only [Schema.definitionsIn, versionsIn_append, Nat.add_assoc] at hc
    have hs := build_alike type he.1 h hc hr
    exact hs.trans (buildFields_alike rest he.2 hs.same hs.counted hrest)
end

/-! ## The plain types -/

theorem definePlain_effect : ∀ names {b b' u},
    Returns (definePlain names) b u b' → b'.versions = b.versions ∧
      b'.definitions = b.definitions + versionsIn (names.flatMap fun n => n.text?.toList)
  | [], b, b', u, h => by
    rw [h.pure.2]
    exact ⟨rfl, rfl⟩
  | name :: rest, b, b', u, h => by
    obtain ⟨_, m, hd, hrest⟩ := h.bind
    obtain ⟨hv, hn⟩ := define_definitions hd
    obtain ⟨hv', hn'⟩ := definePlain_effect rest hrest
    refine ⟨hv'.trans hv, ?_⟩
    rw [hn', hn, flatMap_cons, versionsIn_append]
    omega

theorem Counted.none_iff : Counted none b left ↔ b.versions = none := by
  constructor
  · intro h
    cases hv : b.versions with
    | none => rfl
    | some all =>
      obtain ⟨e, he, _⟩ := h.found all hv
      cases he
  · intro h
    refine ⟨?_, ?_⟩
    · intro all hall
      rw [h] at hall
      cases hall
    · intro e he
      cases he

theorem Reading.symbols_eq {p' Q Q' k symbols symbols'} (h : Reading p last s R b m symbols R' b')
    (h' : Reading p' last' s Q c k symbols' Q' c') (hs : s.extendsEarlier [] = true)
    (hdefined : "PrimitiveType" ∈ s.definitions) (hb : Counted last b (versionsIn s.definitions))
    (hc : Counted last' c (versionsIn s.definitions)) :
    symbols = symbols' := by
  obtain ⟨t, hbuilt⟩ := h.built
  obtain ⟨t', hbuilt'⟩ := h'.built
  obtain ⟨n, hlisted⟩ := h.listed
  obtain ⟨n', hlisted'⟩ := h'.listed
  have halike : Alike [] s.definitions (Bool.rec last' last) 0 (Bool.rec c b) (Bool.rec k m) :=
    build_alike s hs nofun (Bool.rec hc hb) (t := Bool.rec t' t) (Bool.rec hbuilt' hbuilt)
  have hsame := (halike.same "PrimitiveType" hdefined true).2 false
  simpa [Building.symbols, hlisted, hlisted', versionsName] using hsame

/-- What a reading that looks for no last definition of the versions leaves of them. -/
theorem Reading.versions {symbols} (h : Reading p none s R b m symbols R' b')
    (hs : s.extendsEarlier [] = true) (hb : b.versions = none) : b'.versions = none ∧
      b'.definitions = b.definitions + versionsIn s.definitions +
        versionsIn (symbols.flatMap fun n => n.text?.toList) := by
  obtain ⟨t, hbuilt⟩ := h.built
  have hcounted : Counted none b (versionsIn s.definitions + 0) := Counted.none_iff.mpr hb
  have halike : Alike [] s.definitions (fun _ : Unit => none) 0 (fun _ => b) fun _ => m :=
    build_alike s hs nofun (fun _ => hcounted) fun _ => hbuilt
  obtain ⟨hv, hd⟩ := definePlain_effect symbols h.entered
  exact ⟨hv.trans (Counted.none_iff.mp (halike.counted ())), by rw [hd, halike.definitions ()]⟩

theorem lastDefinition_cases {e} (h : Returns lastDefinition b (some e) b') :
    e = b.definitions / 2 * 3 ∧ ∃ n symbols, b.language.get? versionsName = some (.enum n symbols) := by
  unfold lastDefinition at h
  have rest := h.get_bind
  split at rest
  · rename_i n symbols hl
    exact ⟨Option.some.inj rest.pure.1, n, symbols, hl⟩
  · cases rest.pure.1

theorem Reading.plain {symbols} (h : Reading p last s R b m symbols R' b') {listed}
    (hl : b'.language.get? n = some (.enum name listed)) : n ∉ symbols.flatMap fun n => n.text?.toList := by
  intro hn
  obtain ⟨k, hk, hkn⟩ := mem_flatMap.mp hn
  have hany : (symbols.any fun k => k.isName n) = true :=
    any_eq_true.mpr ⟨k, hk, Node.mem_text?.mp hkn⟩
  have hR : R' n = some (.plain p) := by rw [h.registry, putPlain_apply, if_pos hany]
  rcases h.agrees n with ⟨hnone, _⟩ | ⟨o, t, ho, ht, htells, _⟩
  · rw [hR] at hnone
    cases hnone
  · rw [hR] at ho
    cases ho
    cases htells
    rw [hl] at ht
    cases ht

theorem Reading.defined {symbols} (h : Reading p last s .empty start m symbols R' b') :
    "PrimitiveType" ∈ s.definitions := by
  obtain ⟨t, hbuilt⟩ := h.built
  obtain ⟨n, hlisted⟩ := h.listed
  refine Decidable.byContradiction fun hmem => ?_
  have hnone := (note_entry p s .empty "PrimitiveType").1 hmem
  rcases (build_told p last s none .null agrees_start hbuilt).agrees "PrimitiveType" with
    ⟨_, hl⟩ | ⟨o, _, ho, _⟩
  · rw [hl] at hlisted
    cases hlisted
  · rw [hnone] at ho
    cases ho

theorem readings_symbols {R₁ R₂ R₃ m₁ b₁ m₂ b₂ m₃ b₃ symbols₁ symbols₂ symbols₃}
    (hs : s.extendsEarlier [] = true) (h₁ : Reading 1 none s .empty start m₁ symbols₁ R₁ b₁)
    (h₂ : Reading 2 none s R₁ b₁ m₂ symbols₂ R₂ b₂) (hlast : Returns lastDefinition b₂ last b₂)
    (h₃ : Reading 3 last s R₂ b₂ m₃ symbols₃ R₃ b₃) :
    symbols₁ = symbols₂ ∧ symbols₂ = symbols₃ := by
  have hdefined := h₁.defined
  obtain ⟨hv₁, hd₁⟩ := h₁.versions hs rfl
  obtain ⟨hv₂, hd₂⟩ := h₂.versions hs hv₁
  have hsame : symbols₁ = symbols₂ :=
    h₁.symbols_eq h₂ hs hdefined (Counted.none_iff.mpr rfl) (Counted.none_iff.mpr hv₁)
  refine ⟨hsame, h₂.symbols_eq h₃ hs hdefined (Counted.none_iff.mpr hv₁) ⟨?_, ?_⟩⟩
  · intro all hall
    rw [hv₂] at hall
    cases hall
  · -- the versions are no plain type, so two readings have defined them equally often
    rintro e rfl
    obtain ⟨rfl, n, listed, hl⟩ := lastDefinition_cases hlast
    have hplain : versionsIn (symbols₂.flatMap fun n => n.text?.toList) = 0 :=
      count_eq_zero.mpr (h₂.plain hl)
    rw [hsame] at hd₁
    have hstart : start.definitions = 0 := rfl
    omega

end CwlService.Language
