import CwlService.Proofs.Language.Simulation

/-! # Which reading made a type

What a reading makes refers to types of the same reading, or by a forward reference to
types of the reading before. So a path from a type of the third reading comes to a type of
the second by one forward reference and to one of the first by two; the third leads to a
name, since before the first reading nothing was defined. -/
namespace CwlService.Language

open List

/-- An origin of a reading; that of a name is before all readings. `fresh` tells which
readings may have entered a plain type. -/
inductive Created (fresh : Nat → Nat → Prop) : Nat → Origin → Prop
  | plain {p r} : fresh r (p + 1) → Created fresh (p + 1) (.plain r)
  | simple {p} : Created fresh (p + 1) (.simple (p + 1))
  | array {p os} : (∀ o ∈ os, Created fresh (p + 1) o) → Created fresh (p + 1) (.array (p + 1) os)
  | record {p fs} : (∀ f ∈ fs, ∀ o ∈ f.2, Created fresh (p + 1) o) →
      Created fresh (p + 1) (.record (p + 1) fs)
  | union {p os} : (∀ o ∈ os, Created fresh (p + 1) o) → Created fresh (p + 1) (.union (p + 1) os)
  | raw {name} : Created fresh 0 (.raw name)
  | near {p o} : Created fresh p o → Created fresh p (.reference false o)
  | forward {p o} : Created fresh p o → Created fresh (p + 1) (.reference true o)

variable {fresh : Nat → Nat → Prop}

/-! ## Along a path -/

namespace Origin

/-- Whether an origin is what references stand for in the end. -/
def IsEnd (o : Origin) : Prop := ∀ forward target, o ≠ .reference forward target

theorem target_isEnd : ∀ o : Origin, IsEnd o.target.2
  | .reference _ o => by simpa only [target] using target_isEnd o
  | .plain _ | .simple _ | .array _ _ | .record _ _ | .union _ _ | .raw _ => by
    intro forward target h; cases h

end Origin

variable {p : Nat} {o : Origin} {R : Registry} {s : Schema}

theorem Created.target (h : Created fresh p o) :
    o.target.1 ≤ p ∧ Created fresh (p - o.target.1) o.target.2 := by
  induction h with
  | near _ ih => simpa [Origin.target] using ih
  | @forward p o _ ih =>
    simp only [Origin.target, Bool.toNat_true]
    refine ⟨by omega, ?_⟩
    rw [show p + 1 - (1 + o.target.1) = p - o.target.1 by omega]
    exact ih.2
  | plain hf => exact ⟨Nat.zero_le _, .plain hf⟩
  | simple => exact ⟨Nat.zero_le _, .simple⟩
  | array hs => exact ⟨Nat.zero_le _, .array hs⟩
  | record hs => exact ⟨Nat.zero_le _, .record hs⟩
  | union hs => exact ⟨Nat.zero_le _, .union hs⟩
  | raw => exact ⟨Nat.zero_le _, .raw⟩

theorem Created.step {next m} (h : Created fresh p o) (hs : o.step m = some next) :
    Created fresh p next := by
  cases h with
  | array hos =>
    cases m with
    | item i => exact hos next (mem_of_getElem? hs)
    | field name i => cases hs
  | @record _ fs hfs =>
    cases m with
    | item i => cases hs
    | field name i =>
      obtain ⟨os, hl, hi⟩ := Option.bind_eq_some_iff.mp hs
      obtain ⟨before, after, rfl, _⟩ := lookup_eq_some_iff.mp hl
      exact hfs (name, os) (by simp) next (mem_of_getElem? hi)
  | plain | simple | union _ | raw | near _ | forward _ => cases m <;> cases hs

theorem Created.follow {ms k last} (h : Created fresh p o) (hf : o.follow ms = some (k, last)) :
    k ≤ p ∧ Created fresh (p - k) last ∧ last.IsEnd := by
  induction ms generalizing o p k with
  | nil =>
    simp only [Origin.follow, Option.some.injEq] at hf
    have ht := h.target
    have he := o.target_isEnd
    rw [hf] at ht he
    exact ⟨ht.1, ht.2, he⟩
  | cons m ms ih =>
    simp only [Origin.follow, Option.bind_eq_bind, Option.bind_eq_some_iff, Option.some.injEq,
      Prod.mk.injEq] at hf
    obtain ⟨next, hs, ⟨j, last'⟩, hj, hk, rfl⟩ := hf
    obtain ⟨hle, ht⟩ := h.target
    obtain ⟨hj', hlast, hend⟩ := ih (ht.step hs) hj
    simp only at hk
    refine ⟨by omega, ?_, hend⟩
    rw [show p - k = p - o.target.1 - j by omega]
    exact hlast

/-- At the end of a path stands a name exactly if no reading is left. -/
theorem Created.raw_iff (h : Created fresh p o) (he : o.IsEnd) : (∃ name, o = .raw name) ↔ p = 0 := by
  cases h with
  | raw => simp
  | plain | simple | array | record | union => simp
  | near | forward => exact absurd rfl (he _ _)

theorem Created.reading (h : Created Eq (p + 1) o) (he : o.IsEnd) : o.reading? = some (p + 1) := by
  cases h with
  | plain hf => rw [hf]; rfl
  | simple | array | record | union => rfl
  | near | forward => exact absurd rfl (he _ _)

/-! ## In one reading -/

/-- During a reading a registry has types of this reading and of the one before. -/
def Entered (fresh : Nat → Nat → Prop) (p : Nat) (R : Registry) : Prop := ∀ n o, R n = some o →
  (o.reading? = some p ∧ Created fresh p o) ∨
    o.reading? ≠ some p ∧ ∃ q, p = q + 1 ∧ Created fresh q o

/-- Every name of a list has an entry, unless this is the first reading. -/
def Known (p : Nat) (R : Registry) (names : List String) : Prop :=
  ∀ n ∈ names, p = 1 ∨ ∃ o, R n = some o

theorem Known.append {ns ns'} (h : Known p R (ns ++ ns')) : Known p R ns ∧ Known p R ns' :=
  ⟨fun n hn => h n (mem_append_left _ hn), fun n hn => h n (mem_append_right _ hn)⟩

theorem Entered.put (h : Entered fresh p R) (name) (hr : o.reading? = some p)
    (ho : Created fresh p o) :
    Entered fresh p (R.put name o) := by
  intro n o' ho'
  simp only [Registry.put] at ho'
  split at ho'
  · cases ho'; exact .inl ⟨hr, ho⟩
  · exact h n o' ho'

theorem Entered.refer (h : Entered fresh p R) {name} (hk : Known p R [name]) :
    Created fresh p (R.refer p name) := by
  simp only [Registry.refer]
  cases hR : R name with
  | none =>
    rcases hk name (by simp) with rfl | ⟨o, ho⟩
    · exact .forward .raw
    · rw [hR] at ho; cases ho
  | some o =>
    rcases h name o hR with ⟨hr, ho⟩ | ⟨hr, q, rfl, ho⟩
    · simp only [hr, bne_self_eq_false]
      exact .near ho
    · have : (o.reading? != some (q + 1)) = true := by simpa using hr
      simp only [this]
      exact .forward ho

/-- The types of fields that parents give are of this reading, or taken over from the one
before. -/
theorem Entered.fieldsOf (h : Entered fresh p R) (parent : Parent) :
    ∀ f ∈ R.fieldsOf p parent, ∀ o ∈ f.2, Created fresh p o := by
  cases parent with
  | fault _ => simp [Registry.fieldsOf]
  | named name =>
    simp only [Registry.fieldsOf]
    split
    · rename_i r fields hR
      rcases h name _ hR with ⟨hr, ho⟩ | ⟨hr, q, rfl, ho⟩
      · obtain rfl : r = p := by simpa [Origin.reading?] using hr
        rw [if_pos rfl]
        cases ho with
        | record hfs => exact hfs
      · have : r ≠ q + 1 := by simpa [Origin.reading?] using hr
        rw [if_neg this]
        intro f hf o hof
        obtain ⟨g, hg, rfl⟩ := mem_map.mp hf
        obtain ⟨o', ho', rfl⟩ := mem_map.mp hof
        cases ho with
        | record hfs => exact .forward (hfs g hg o' ho')
    · simp

theorem mem_putOrigin {fs f g} (h : g ∈ putOrigin fs f) : g ∈ fs ∨ g = f := by
  simp only [putOrigin] at h
  split at h
  · obtain ⟨g', hg', rfl⟩ := mem_map.mp h
    split
    · exact .inr rfl
    · exact .inl hg'
  · simpa using h

theorem mem_foldl_putOrigin {gs} : ∀ {fs : List (String × List Origin)} {f},
    f ∈ fs.foldl putOrigin gs → f ∈ gs ∨ f ∈ fs := by
  intro fs
  induction fs generalizing gs with
  | nil => intro f h; exact .inl h
  | cons g fs ih =>
    intro f h
    rcases ih h with h | h
    · rcases mem_putOrigin h with h | rfl
      · exact .inl h
      · exact .inr (by simp)
    · exact .inr (mem_cons_of_mem _ h)

/-- Some names were entered in a reading, and nothing else changed. -/
def Adds (p : Nat) (names : List String) (R R' : Registry) : Prop := ∀ n,
  (n ∉ names → R' n = R n) ∧ (n ∈ names → ∃ o, R' n = some o ∧ o.reading? = some p)

theorem Adds.trans {p names more R R' R''} (h : Adds p names R R') (h' : Adds p more R' R'') :
    Adds p (names ++ more) R R'' := by
  intro n
  rw [mem_append, not_or]
  refine ⟨fun hn => ((h' n).1 hn.2).trans ((h n).1 hn.1), fun hn => ?_⟩
  by_cases hmore : n ∈ more
  · exact (h' n).2 hmore
  · rw [(h' n).1 hmore]
    exact (h n).2 (hn.resolve_right hmore)

mutual
theorem note_entry (p : Nat) : ∀ s R, Adds p s.definitions R (note p R s).2
  | .ref _, R => fun n => by simp [note, Schema.definitions]
  | .union alternatives, R => by
    simpa only [note, Schema.definitions] using noteAll_entry p alternatives R
  | .array items, R => by simpa only [note, Schema.definitions] using note_entry p items R
  | .enum name _ _, R => fun n => by
    simp only [note, Schema.definitions, Registry.put, Node.mem_text?]
    exact ⟨fun h => if_neg h, fun h => ⟨_, if_pos h, rfl⟩⟩
  | .record name _ parents fields, R => fun n => by
    simp only [note, Schema.definitions, Registry.put, mem_append, Node.mem_text?, not_or]
    obtain ⟨hother, hown⟩ := noteFields_entry p fields R n
    by_cases hn : name.isName n = true
    · exact ⟨fun h => absurd hn h.2, fun _ => ⟨_, if_pos hn, rfl⟩⟩
    · rw [if_neg hn]
      exact ⟨fun h => hother h.1, fun h => hown (h.resolve_right hn)⟩
  | .unknown _, R => fun n => by simp [note, Schema.definitions]
  | .fault _, R => fun n => by simp [note, Schema.definitions]

theorem noteAll_entry (p : Nat) : ∀ ss R, Adds p (Schema.definitionsAll ss) R (noteAll p R ss).2
  | [], R => fun n => by simp [noteAll, Schema.definitionsAll]
  | s :: rest, R => by
    simp only [noteAll, Schema.definitionsAll]
    exact (note_entry p s R).trans (noteAll_entry p rest _)

theorem noteFields_entry (p : Nat) : ∀ fs R,
    Adds p (Schema.definitionsIn fs) R (noteFields p R fs).2
  | [], R => fun n => by simp [noteFields, Schema.definitionsIn]
  | .fault _ :: rest, R => fun n => by simp [noteFields, Schema.definitionsIn]
  | .field name key type :: rest, R => by
    simp only [noteFields, Schema.definitionsIn]
    exact (note_entry p type R).trans (noteFields_entry p rest _)
end

theorem Known.note {names} (h : Known p R names) (s : Schema) :
    Known p (note p R s).2 names := by
  intro n hn
  obtain ⟨hother, hown⟩ := note_entry p s R n
  by_cases hd : n ∈ s.definitions
  · obtain ⟨o, ho, _⟩ := hown hd
    exact .inr ⟨o, ho⟩
  · rw [hother hd]
    exact h n hn

/-- What is one type alone is all that it stands for. -/
theorem Created.alone (h : Created fresh p o) (ha : o.alternatives = [o]) :
    ∀ o' ∈ o.alternatives, Created fresh p o' := by
  intro o' ho'
  rw [ha, mem_singleton] at ho'
  exact ho' ▸ h

mutual
theorem note_created (p : Nat) : ∀ s {R}, Entered fresh (p + 1) R →
    Known (p + 1) R s.references → Created fresh (p + 1) (note (p + 1) R s).1 ∧
      (∀ o ∈ (note (p + 1) R s).1.alternatives, Created fresh (p + 1) o) ∧
      Entered fresh (p + 1) (note (p + 1) R s).2
  | .ref name, R, hE, hK => by
    have hc := hE.refer hK
    exact ⟨hc, hc.alone (by unfold Registry.refer; split <;> rfl), hE⟩
  | .union alternatives, R, hE, hK => by
    obtain ⟨hall, hE'⟩ := noteAll_created p alternatives hE hK
    exact ⟨.union hall, hall, hE'⟩
  | .array items, R, hE, hK => by
    obtain ⟨_, hall, hE'⟩ := note_created p items hE hK
    exact ⟨.array hall, Created.alone (.array hall) rfl, hE'⟩
  | .enum name _ _, R, hE, _ => ⟨.simple, Created.alone .simple rfl, hE.put name rfl .simple⟩
  | .record name documented parents fields, R, hE, hK => by
    obtain ⟨hown, hE'⟩ := noteFields_created p fields hE hK
    have hrecord : Created fresh (p + 1)
        (note (p + 1) R (.record name documented parents fields)).1 := by
      refine .record fun f hf => ?_
      rcases mem_foldl_putOrigin hf with hf | hf
      · cases hf
      rcases mem_append.mp hf with hf | hf
      · obtain ⟨parent, _, hf⟩ := mem_flatMap.mp hf
        exact hE.fieldsOf parent f hf
      · exact hown f hf
    exact ⟨hrecord, hrecord.alone rfl, hE'.put name rfl hrecord⟩
  | .unknown _, R, hE, _ => ⟨.simple, Created.alone .simple rfl, hE⟩
  | .fault _, R, hE, _ => ⟨.simple, Created.alone .simple rfl, hE⟩

theorem noteAll_created (p) : ∀ ss {R}, Entered fresh (p + 1) R →
    Known (p + 1) R (Schema.referencesAll ss) → (∀ o ∈ (noteAll (p + 1) R ss).1, Created fresh (p + 1) o) ∧
      Entered fresh (p + 1) (noteAll (p + 1) R ss).2
  | [], R, hE, _ => ⟨by simp [noteAll], hE⟩
  | s :: rest, R, hE, hK => by
    obtain ⟨hs, hrest⟩ := Known.append hK
    obtain ⟨hc, _, hE'⟩ := note_created p s hE hs
    obtain ⟨hall, hE''⟩ := noteAll_created p rest hE' (hrest.note s)
    refine ⟨?_, hE''⟩
    simp only [noteAll, mem_cons, forall_eq_or_imp]
    exact ⟨hc, hall⟩

theorem noteFields_created (p : Nat) : ∀ fs {R},
    Entered fresh (p + 1) R → Known (p + 1) R (Schema.referencesIn fs) →
    (∀ f ∈ (noteFields (p + 1) R fs).1, ∀ o ∈ f.2, Created fresh (p + 1) o) ∧
      Entered fresh (p + 1) (noteFields (p + 1) R fs).2
  | [], R, hE, _ => ⟨by simp [noteFields], hE⟩
  | .fault _ :: rest, R, hE, _ => ⟨by simp [noteFields], hE⟩
  | .field name key type :: rest, R, hE, hK => by
    obtain ⟨htype, hrest⟩ := Known.append hK
    obtain ⟨_, hc, hE'⟩ := note_created p type hE htype
    obtain ⟨hall, hE''⟩ := noteFields_created p rest hE' (hrest.note type)
    refine ⟨?_, hE''⟩
    simp only [noteFields, mem_cons, forall_eq_or_imp]
    exact ⟨hc, hall⟩
end

/-! ## After a reading -/

theorem putPlain_apply (R : Registry) (p : Nat) (names : List Node) (n : String) :
    R.putPlain p names n = if names.any fun m => m.isName n then some (.plain p) else R n := by
  unfold Registry.putPlain
  induction names generalizing R with
  | nil => rfl
  | cons name names ih =>
    rw [foldl_cons, ih, Registry.put, any_cons]
    by_cases hn : name.isName n = true <;> simp [hn]

/-- After a reading every entry is of this reading, and stands under a name that the schema
defines or is a plain type under one that it lists. -/
structure Finished (fresh : Nat → Nat → Prop) (s : Schema) (listed : String → Prop) (p : Nat)
    (R : Registry) : Prop where
  created : ∀ n o, R n = some o → Created fresh p o
  named : ∀ n o, R n = some o → n ∈ s.definitions ∨ (∃ r, o = .plain r) ∧ listed n

theorem Finished.empty {listed : String → Prop} : Finished fresh s listed 0 .empty := by
  constructor <;> (intro n o h; cases h)

theorem Finished.entered {listed : String → Prop} (h : Finished fresh s listed p R)
    (hf : fresh (p + 1) (p + 1)) : Entered fresh (p + 1) R := by
  intro n o ho
  have hc := h.created n o ho
  by_cases hr : o.reading? = some (p + 1)
  · refine .inl ⟨hr, ?_⟩
    cases hc with
    | plain _ =>
      obtain rfl := Option.some.inj hr
      exact .plain hf
    | simple | array _ | record _ | union _ => simp [Origin.reading?] at hr
    | raw | near _ | forward _ => cases hr
  · exact .inr ⟨hr, p, rfl, hc⟩

/-- A reading that knows its references makes all entries anew; `hlisted` says that no plain
type is left behind that would count as old. -/
theorem Finished.next {listed : String → Prop} (h : Finished fresh s listed p R)
    (hk : Known (p + 1) R s.references) (hf : fresh (p + 1) (p + 1)) {symbols}
    (hsymbols : ∀ n, (symbols.any fun m => m.isName n) = true → listed n)
    (hlisted : ∀ n, listed n → (symbols.any fun m => m.isName n) = true ∨ ∀ r, fresh r (p + 1)) :
    Finished fresh s listed (p + 1) ((note (p + 1) R s).2.putPlain (p + 1) symbols) := by
  obtain ⟨_, _, hentered⟩ := note_created p s (h.entered hf) hk
  -- an entry is a plain type of this reading, or defined in it, or a plain type left over
  have hcases : ∀ n o, (note (p + 1) R s).2.putPlain (p + 1) symbols n = some o →
      (o = .plain (p + 1) ∧ (symbols.any fun m => m.isName n) = true) ∨
      (n ∈ s.definitions ∧ Created fresh (p + 1) o) ∨
      (∃ r, o = .plain r ∧ ∀ r, fresh r (p + 1)) ∧ listed n := by
    intro n o ho
    rw [putPlain_apply] at ho
    split at ho
    · rename_i hs
      exact .inl ⟨(Option.some.inj ho).symm, hs⟩
    · rename_i hs
      obtain ⟨hother, hown⟩ := note_entry (p + 1) s R n
      by_cases hd : n ∈ s.definitions
      · obtain ⟨o', ho', hr⟩ := hown hd
        rw [ho] at ho'
        cases ho'
        rcases hentered n o ho with ⟨_, hc⟩ | ⟨hne, _⟩
        · exact .inr (.inl ⟨hd, hc⟩)
        · exact absurd hr hne
      · rw [hother hd] at ho
        obtain ⟨⟨r, rfl⟩, hl⟩ := (h.named n o ho).resolve_left hd
        exact .inr (.inr ⟨⟨r, rfl, (hlisted n hl).resolve_left hs⟩, hl⟩)
  refine ⟨fun n o ho => ?_, fun n o ho => ?_⟩
  · rcases hcases n o ho with ⟨rfl, _⟩ | ⟨_, hc⟩ | ⟨⟨r, rfl, hr⟩, _⟩
    · exact .plain hf
    · exact hc
    · exact .plain (hr r)
  · rcases hcases n o ho with ⟨rfl, hs⟩ | ⟨hd, _⟩ | ⟨⟨r, rfl, _⟩, hl⟩
    · exact .inr ⟨⟨_, rfl⟩, hsymbols n hs⟩
    · exact .inl hd
    · exact .inr ⟨⟨r, rfl⟩, hl⟩

end CwlService.Language
