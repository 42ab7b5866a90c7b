import CwlService.Language.Inference
import CwlService.Proofs.Node.Keys
import CwlService.Proofs.Outcome

/-! # What a node can be taken for

A node is taken for a type that is allowed for it. Where any type is allowed, a node that
names its type is taken for the type of that name. Only a node with an import is taken for a
link. A value that is no map is taken for a record only if its key says so or nothing else is
allowed. -/
namespace CwlService

open List

/-- If a meaning is a type, it is one of a kind. -/
def Meaning.TypedIn (P : CwlType → Prop) : Meaning → Prop
  | .typed t => P t
  | _ => True

/-- What a node can be taken for, where types of a kind are allowed. -/
inductive Meaning.Fits (node : Node) (P : CwlType → Prop) : Meaning → Prop where
  | typed {t} (h : P t) : Fits node P (.typed t)
  | absent (t : CwlType) : Fits node P (.absent t)
  | dataType (name : String) (symbols : List Node) : Fits node P (.dataType name symbols)
  | expression {text styled} (hnode : node = .text text styled) (h : P .expression) :
    Fits node P (.expression text)
  | linkedFile {target} (h : node.field? "$import" = some target) (extension : Option String) :
    Fits node P (.linkedFile target extension)
  | linkedType {target} (h : node.field? "$import" = some target) : Fits node P (.linkedType target)
  | namespaced (name : Node) : Fits node P (.namespaced name)
  | unknown (name : Node) (expected : List Expected) : Fits node P (.unknown name expected)

variable {P : CwlType → Prop} {m : Meaning} {hasKey : Bool} {ts : List CwlType} {vs : List Verdict}
  {l : Language}

variable {node : Node}

theorem Meaning.Fits.mono {Q : CwlType → Prop} (h : m.Fits node P) (hPQ : ∀ t, P t → Q t) :
    m.Fits node Q := by
  cases h with
  | typed h => exact .typed (hPQ _ h)
  | linkedFile h extension => exact .linkedFile h extension
  | linkedType h => exact .linkedType h
  | expression hnode h => exact .expression hnode (hPQ _ h)
  | absent | dataType | namespaced | unknown => constructor

theorem Meaning.Fits.typedIn (h : m.Fits node P) : m.TypedIn P := by
  cases h with
  | typed h => exact h
  | _ => trivial

namespace CwlType

theorem checkRecord_gives (name fields self node hasKey map) :
    Gives (fun v => v.meaning.Fits node (· = self)) (checkRecord name fields self node hasKey map) := by
  have hno : Gives (fun v => v.meaning.Fits node (· = self)) (pure (Verdict.no (.typed self))) :=
    .pure (.typed rfl)
  unfold checkRecord
  dsimp only
  split
  · exact hno
  · split
    · rename_i form es _ target htarget
      have himport : Node.field? (.map form es) "$import" = some target := htarget
      refine .pure ?_
      split
      · exact .linkedType himport
      · exact .linkedFile himport none
    · refine .bind (.any _) fun _ _ => .pure ?_
      split
      · exact .typed rfl
      · split <;> exact .typed rfl
  · refine .bind (.any _) fun _ _ => ?_
    split
    · refine .ite (fun _ => ?_) fun _ => hno
      refine .ite (fun _ => .throw_bind _ _) fun _ => ?_
      exact .ite (fun _ => .pure (.typed rfl)) fun _ => hno
    · exact hno

theorem check?_gives (self : CwlType) (node hasKey map) :
    Gives (fun v? => ∀ v, v? = some v → v.meaning.Fits node (· = self)) (self.check? node hasKey map) := by
  have hsome : ∀ {v : Verdict}, v.meaning.Fits node (· = self) →
      Gives (fun v? => ∀ v, v? = some v → v.meaning.Fits node (· = self)) (pure (some v)) := by
    intro v hv
    refine .pure ?_
    rintro _ ⟨⟩
    exact hv
  cases self with
  | base | field => exact .pure (by simp)
  | any => exact hsome (.typed rfl)
  | expression =>
    cases node <;> first | exact hsome (.typed rfl) | skip
    refine hsome ?_
    split
    · exact .expression rfl rfl
    · exact .typed rfl
  | enum name symbols =>
    cases node <;> first | exact hsome (.typed rfl) | skip
    refine hsome ?_
    simp only [Verdict.yes]
    split
    · exact .dataType _ _
    · exact .typed rfl
  | array name items =>
    refine hsome ?_
    split <;> exact .typed rfl
  | listOrMap name items key => cases node <;> exact hsome (.typed rfl)
  | record name documented fields =>
    refine .map (checkRecord_gives name fields _ node hasKey map) fun v hv => ?_
    rintro _ ⟨⟩
    exact hv
  | unresolved | union | missing => exact .throw _

end CwlType

theorem checkType_gives (node : Node) (hasKey : Bool) (map : Option MapKey) (t : CwlType) :
    Gives (fun r => r.1.meaning.Fits node (· = t)) (checkType node hasKey map t) := by
  unfold checkType
  refine .bind (.any _) fun name _ => ?_
  refine .ite (fun _ => ?_) fun _ => .ite (fun _ => ?_) fun _ => .ite (fun _ => ?_) fun _ => ?_
  · exact .ite (fun _ => .pure (.absent t)) fun _ => .pure (.absent t)
  · exact .ite (fun _ => .pure (.typed rfl)) fun _ => .ite (fun _ => .pure (.typed rfl)) fun _ =>
      .pure (.typed rfl)
  · split <;> exact .pure (.typed rfl)
  · refine .bind (CwlType.check?_gives t node hasKey map) fun v? hv => ?_
    split
    · exact .throw _
    · exact .pure (hv _ rfl)

variable {map : Option MapKey}

theorem checkType_final {t} :
    Gives (fun r => r.2 = true → r.1.fit = .yes) (checkType node hasKey map t) := by
  unfold checkType
  refine .bind (.any _) fun name _ => ?_
  refine .ite (fun _ => ?_) fun _ => .ite (fun _ => ?_) fun _ => .ite (fun _ => ?_) fun _ => ?_
  · exact .ite (fun _ => .pure fun _ => rfl) fun _ => .pure nofun
  · exact .ite (fun _ => .pure fun _ => rfl) fun _ => .ite (fun _ => .pure nofun) fun _ => .pure nofun
  · split
    all_goals first | exact .pure fun _ => rfl | exact .pure nofun
  · refine .bind (.any _) fun v? _ => ?_
    split
    · exact .throw _
    · exact .pure beq_iff_eq.mp

/-- Either the first type that fits stands alone, or there is a verdict on each. -/
theorem checkInOrder_cases {acc} (h : checkInOrder node hasKey map acc ts = .ok vs) :
    (∃ t ∈ ts, ∃ v, checkType node hasKey map t = .ok (v, true) ∧ vs = [v]) ∨
      ∃ new, vs = acc.reverse ++ new ∧ new.length = ts.length ∧
        ∀ v ∈ new, ∃ t ∈ ts, checkType node hasKey map t = .ok (v, false) := by
  induction ts generalizing acc with
  | nil =>
    cases h
    exact .inr ⟨[], by simp, rfl, nofun⟩
  | cons t rest ih =>
    unfold checkInOrder at h
    obtain ⟨⟨v, final⟩, hcheck, h⟩ := bind_eq_ok h
    cases final with
    | true =>
      cases h
      exact .inl ⟨t, mem_cons_self, v, hcheck, rfl⟩
    | false =>
      rcases ih h with ⟨u, hu, w, hw⟩ | ⟨new, rfl, hlength, hnew⟩
      · exact .inl ⟨u, mem_cons_of_mem _ hu, w, hw⟩
      · refine .inr ⟨v :: new, by simp, by simp [hlength], forall_mem_cons.mpr ⟨?_, fun w hw => ?_⟩⟩
        · exact ⟨t, mem_cons_self, hcheck⟩
        · obtain ⟨u, hu, hcheck⟩ := hnew w hw
          exact ⟨u, mem_cons_of_mem _ hu, hcheck⟩

theorem checkInOrder_verdict (h : checkInOrder node hasKey map [] ts = .ok vs) {v} (hv : v ∈ vs) :
    ∃ t ∈ ts, ∃ final, checkType node hasKey map t = .ok (v, final) ∧
      (v.fit = .yes ∨ vs.length = ts.length) := by
  rcases checkInOrder_cases h with ⟨t, ht, w, hw, rfl⟩ | ⟨_, rfl, hlength, hnew⟩
  · cases mem_singleton.mp hv
    exact ⟨t, ht, true, hw, .inl (checkType_final _ hw rfl)⟩
  · obtain ⟨t, ht, hcheck⟩ := hnew v hv
    exact ⟨t, ht, false, hcheck, .inr hlength⟩

theorem choose_gives (vs) : Gives (fun m =>
    (∃ v ∈ vs, m = v.meaning ∧ (v.fit ≠ .no ∨ vs = [v])) ∨ ∃ name expected, m = .unknown name expected)
    (choose vs) := by
  have hfound : ∀ {fit : Fit} {v : Verdict}, vs.find? (fun v => v.fit == fit) = some v → fit ≠ .no →
      ∃ w ∈ vs, v.meaning = w.meaning ∧ (w.fit ≠ .no ∨ vs = [w]) := by
    intro fit v hv hfit
    have hsame := List.find?_some hv
    exact ⟨v, mem_of_find?_eq_some hv, rfl, .inl (beq_iff_eq.mp hsame ▸ hfit)⟩
  unfold choose
  split
  · rename_i v hv
    exact .pure (.inl (hfound hv nofun))
  · split
    · rename_i v hv
      exact .pure (.inl (hfound hv nofun))
    · split
      · exact .pure (.inl ⟨_, mem_singleton_self _, rfl, .inr rfl⟩)
      · exact .bind (.any _) fun _ _ => .pure (.inr ⟨_, _, rfl⟩)

theorem choose_singleton (v : Verdict) : choose [v] = .ok v.meaning := by
  unfold choose
  cases hfit : v.fit <;> simp [hfit, pure, Except.pure]

/-- A node is taken for the type that it names, or for what the allowed types make of it. -/
theorem infer_eq (l : Language) (node : Node) (allowed : List CwlType) (key : Option Node)
    (map : Option MapKey) : infer l node allowed key map =
      if node.isAgain then .error .endless
      else match explicitType node key map with
        | some name => do
          if ← isNamespaced name then return .namespaced name
          return (← findNamed l name allowed allowed).meaning
        | none => checkInOrder node (key.any fun k => !k.isNull) map [] allowed >>= choose := by
  unfold infer checkTypes
  cases node.isAgain with
  | true => rfl
  | false =>
    cases explicitType node key map with
    | none => rfl
    | some name =>
      dsimp only
      cases isNamespaced name with
      | error f => rfl
      | ok b =>
        cases b with
        | true => rfl
        | false =>
          change ((findNamed l name allowed allowed >>= fun v => pure [v]) >>= choose) = _
          cases findNamed l name allowed allowed with
          | error f => rfl
          | ok v => exact choose_singleton v

theorem explicitType_of_no_class (h : node.field? "class" = none) {key} :
    explicitType node key none = none := by
  unfold explicitType
  rw [h]
  rfl

theorem infer_named {allowed key map name} (hname : explicitType node key map = some name)
    (h : infer l node allowed key map = .ok m) :
    (isNamespaced name = .ok true ∧ m = .namespaced name) ∨
      isNamespaced name = .ok false ∧ ∃ v, findNamed l name allowed allowed = .ok v ∧ m = v.meaning := by
  rw [infer_eq, hname] at h
  split at h
  · cases h
  · obtain ⟨b, hb, h⟩ := bind_eq_ok h
    cases b with
    | true =>
      cases h
      exact .inl ⟨hb, rfl⟩
    | false =>
      obtain ⟨v, hv, h⟩ := bind_eq_ok h
      cases h
      exact .inr ⟨hb, v, hv, rfl⟩

/-- A node that does not name its type is taken for what an allowed type makes of it, or is unknown.
A type that it does not fit counts only if no other is allowed. -/
theorem infer_cases {allowed key} (hnone : explicitType node key map = none)
    (h : infer l node allowed key map = .ok m) :
    (∃ t ∈ allowed, ∃ v final, checkType node (key.any fun k => !k.isNull) map t = .ok (v, final) ∧
      m = v.meaning ∧ (v.fit ≠ .no ∨ allowed = [t])) ∨ ∃ name expected, m = .unknown name expected := by
  rw [infer_eq, hnone] at h
  split at h
  · cases h
  · obtain ⟨vs, hvs, h⟩ := bind_eq_ok h
    rcases choose_gives vs m h with ⟨v, hv, rfl, hfit⟩ | hunknown
    · obtain ⟨t, ht, final, hcheck, hfinal⟩ := checkInOrder_verdict hvs hv
      refine .inl ⟨t, ht, v, final, hcheck, rfl, ?_⟩
      rcases hfinal with hyes | hlength
      · exact .inl (hyes ▸ nofun)
      · refine hfit.imp_right fun halone => ?_
        rw [halone] at hlength
        obtain ⟨u, rfl⟩ := length_eq_one_iff.mp hlength.symm
        rw [mem_singleton.mp ht]
    · exact .inr hunknown

/-- By its name a node is taken for a type or is unknown. -/
theorem findNamed_gives (l : Language) (name : Node) (all : List CwlType) :
    ∀ (ts : List CwlType), (∀ t, .any ∈ ts → l.find? name = some t → name.isKey = true → P t) →
      (∀ t ∈ ts, P t) → Gives (fun v => (∃ t, v.meaning = .typed t ∧ P t) ∨
        ∃ name expected, v.meaning = .unknown name expected) (findNamed l name all ts)
  | [], _, _ => .bind (.any _) fun _ _ => .pure (.inr ⟨_, _, rfl⟩)
  | t :: rest, hl, hts => by
    rw [forall_mem_cons] at hts
    have hrest := findNamed_gives l name all rest (fun u hany => hl u (mem_cons_of_mem _ hany)) hts.2
    cases t with
    | any =>
      refine .ite (fun _ => .throw _) fun hkey => ?_
      split
      · rename_i t ht
        exact .pure (.inl ⟨t, rfl, hl t mem_cons_self ht (by simpa using hkey)⟩)
      · exact .pure (.inr ⟨_, _, rfl⟩)
    | _ => exact .bind (.any _) fun _ _ => .ite (fun _ => .pure (.inl ⟨_, rfl, hts.1⟩)) fun _ => hrest

theorem isNamespaced_gives (name : Node) :
    Gives (fun _ => name.isKey = true → ∃ s styled, name = .text s styled) (isNamespaced name) := by
  cases name with
  | text s styled => exact .pure fun _ => ⟨s, styled, rfl⟩
  | seq | map => exact .pure fun h => by cases h
  | _ => exact .throw _

/-- What a node is taken for is of a kind if all allowed types are, and the type of the
language that it names where any is allowed. -/
theorem infer_gives_of_class (l node allowed key map) (hallowed : ∀ t ∈ allowed, P t)
    (hl : ∀ n styled t, .any ∈ allowed → explicitType node key map = some (.text n styled) → l.get? n = some t → P t) :
    Gives (fun m => m.Fits node P) (infer l node allowed key map) := by
  intro m hm
  cases hclass : explicitType node key map with
  | none =>
    rcases infer_cases hclass hm with ⟨t, ht, v, final, hcheck, rfl, _⟩ | ⟨_, _, rfl⟩
    · exact (checkType_gives node _ map t _ hcheck).mono fun u hu => hu ▸ hallowed t ht
    · exact .unknown _ _
  | some name =>
    rcases infer_named hclass hm with ⟨_, rfl⟩ | ⟨hname, v, hv, rfl⟩
    · exact .namespaced name
    · have hfound := findNamed_gives l name allowed allowed (fun t hany ht hkey => ?_) hallowed v hv
      · rcases hfound with ⟨t, heq, ht⟩ | ⟨_, _, heq⟩
        · exact heq ▸ .typed ht
        · exact heq ▸ .unknown _ _
      · obtain ⟨s, styled, rfl⟩ := isNamespaced_gives name _ hname hkey
        exact hl s styled t hany hclass (by simpa [Language.get?, Language.find?, Node.str] using ht)

/-- What a node is taken for is of a kind if all allowed types and all types of the language
are. -/
theorem infer_gives (l : Language) (node : Node) (allowed : List CwlType) (key : Option Node)
    (map : Option MapKey) (hallowed : ∀ t ∈ allowed, P t) (hl : ∀ n t, l.get? n = some t → P t) :
    Gives (fun m => m.TypedIn P) (infer l node allowed key map) := fun m hm =>
  (infer_gives_of_class l node allowed key map hallowed (fun n _ t _ _ => hl n t) m hm).typedIn

/-- Only a text is taken for one with expressions, and only where such texts are allowed. -/
theorem infer_expression {node allowed key map s}
    (h : infer l node allowed key map = .ok (.expression s)) :
    .expression ∈ allowed ∧ ∃ styled, node = .text s styled := by
  cases hnamed : explicitType node key map with
  | none =>
    rcases infer_cases hnamed h with ⟨t, ht, v, final, hcheck, hm, _⟩ | ⟨_, _, hm⟩
    · have htype : v.meaning.Fits node (· = t) := checkType_gives node _ map t _ hcheck
      rw [← hm] at htype
      cases htype with
      | expression hnode heq => exact ⟨heq ▸ ht, _, hnode⟩
    · cases hm
  | some name =>
    rcases infer_named hnamed h with ⟨_, hm⟩ | ⟨_, v, hv, hm⟩
    · cases hm
    · have hfound : Gives _ _ := findNamed_gives l name allowed allowed (P := fun _ => True) (fun _ _ _ _ => trivial)
        fun _ _ => trivial
      rcases hfound v hv with ⟨t, heq, _⟩ | ⟨_, _, heq⟩ <;> cases hm.trans heq

/-- The name of a plain value, which is told by this name alone. -/
def Node.isPlainName (n : Node) : Bool := ["null", "string", "boolean", "int", "long"].any n.isName

theorem checkType_record {node k documented} {fields : Fields} (hnode : node.isMap = false)
    (hname : k.isPlainName = false) :
    Gives (fun r => r.1.fit = .no) (checkType node hasKey none (.record k documented fields)) := by
  simp only [Node.isPlainName, any_cons, any_nil, Bool.or_false, Bool.or_eq_false_iff] at hname
  obtain ⟨hnull, hstring, hboolean, hint, hlong⟩ := hname
  refine .bind (.pure (P := (· = k)) rfl) fun name hk => ?_
  simp only [hk, hnull, hstring, hboolean, hint, hlong, any_cons, any_nil, Bool.or_false,
    Bool.false_eq_true, if_false]
  refine .bind (P := fun v? => ∀ v, v? = some v → v.fit = .no) ?_ fun v? hv => ?_
  · cases node with
    | map => cases hnode
    | _ => exact .map (.pure (P := (·.fit = .no)) rfl) fun v hv _ hsome => Option.some.inj hsome ▸ hv
  · cases v? with
    | none => exact .throw _
    | some v => exact .pure (hv v rfl)

/-- A value that is no map is taken for a record, if its key does not say so, only where nothing
else is allowed. -/
theorem infer_record_alone {allowed key k documented} {fields : Fields} (hnode : node.isMap = false)
    (hname : k.isPlainName = false)
    (h : infer l node allowed key none = .ok (.typed (.record k documented fields))) :
    allowed = [.record k documented fields] := by
  have hnone : explicitType node key none = none := by
    cases node with
    | map => cases hnode
    | _ => rfl
  rcases infer_cases hnone h with ⟨t, _, v, final, hcheck, hm, hfit⟩ | ⟨_, _, hm⟩
  · have htype : v.meaning.Fits node (· = t) := checkType_gives node _ none t _ hcheck
    rw [← hm] at htype
    cases htype with
    | typed ht =>
      subst ht
      exact hfit.resolve_left fun hno => hno (checkType_record hnode hname _ hcheck)
  · cases hm

end CwlService
