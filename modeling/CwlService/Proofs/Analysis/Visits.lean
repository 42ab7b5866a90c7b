import CwlService.Proofs.Analysis.Found

/-! # What visits find

Every visit that comes to an end adds what there is to find in its node. The steps of a
workflow and the interface of a step are set where the language has them, so nothing else on
the way touches them. -/
namespace CwlService.Analysis

open Node (AllMaps TextKeys)
open List

variable {S : Scene} {ctx : Context}

/-! ## Names -/

theorem inOrder_eq {ns ms} (h : inOrder ns = .ok ms) : Node.sorted? ns = some ms := by
  unfold inOrder at h
  split at h
  · cases h
    assumption
  · cases h

theorem expectKnown_finds (known : Bool) (span : Option Span) {names expected}
    (h : ∀ ns, names = .ok ns → expected = ns) : Finds S ctx (expectKnown known span names)
      { problems := if known then [] else [expecting span expected] } fun _ => True := by
  cases known with
  | true => exact .pure trivial
  | false =>
    refine .lift_bind fun ns hns => ?_
    rw [h ns hns]
    exact .report _

theorem visitSymbols_finds (name : Node) {symbols} (hkeys : symbols.all Node.isKey = true)
    (node : Node) (value : Option Span) : Finds S ctx (visitSymbols name symbols node value)
      { problems := symbolProblems symbols node value } fun _ => True := by
  -- a collection is the same as no key
  have hcollection : node.isKey = false → symbols.any node.same = false := by
    intro hnode
    rw [any_eq_false]
    intro k hk hsame
    rw [Node.isKey_of_same hsame (all_eq_true.mp hkeys k hk)] at hnode
    cases hnode
  have hsame : (node.isKey && symbols.any node.same) = symbols.any node.same := by
    cases hnode : node.isKey with
    | true => rfl
    | false => rw [hcollection hnode]; rfl
  unfold visitSymbols symbolProblems
  rw [hsame]
  refine .ite (fun _ => .throw_bind _) fun _ => ?_
  rw [← Findings.append_empty { problems := _ }]
  refine .bind (expectKnown_finds _ value fun names hnames => ?_) fun _ _ => .hint value _
  rw [inOrder_eq hnames]
  rfl

theorem prefixNames_eq {declared} (hkeys : AllMaps TextKeys declared) {names}
    (h : declaredNames declared = .ok names) : prefixNames declared = names := by
  cases declared with
  | map form es =>
    refine (NameSet.eq_ofList_of_sorted (inOrder_eq h) ?_ ?_).symm
    · intro k hk
      obtain ⟨e, he, rfl⟩ := mem_map.mp hk
      exact hkeys.1.isText e he
    · rw [map_map]
      exact hkeys.1.distinct
  | _ => simp only [prefixNames, h, Except.toOption, Option.getD_some]

theorem visitNamespaced_finds (hS : S.Sound) (name : Node) (key value : Option Span) :
    Finds S ctx (visitNamespaced name key value) { problems := S.prefixProblems name key value }
      fun _ => True := by
  unfold visitNamespaced Scene.prefixProblems
  cases name.text? with
  | none => exact .throw _
  | some s =>
    refine .get_bind fun a r hs => .lift_bind fun declared hdeclared => ?_
    have hnamespaces : a.namespaces = S.namespaces := hs.namespaces
    rw [hnamespaces] at hdeclared
    simp only [hdeclared, hnamespaces]
    have hreport : Finds S ctx _ _ _ :=
      expectKnown_finds declared (key.or value) fun _ => prefixNames_eq hS.prefixes
    cases declared <;> exact hreport

theorem visitUnknown_finds (name : Node) (expected : List Expected) (value : Option Span) :
    Finds S ctx (visitUnknown name expected value)
      { problems := [.error value ("Got type " ++ name.shown ++ ". Expecting one of [" ++
        ", ".intercalate (expected.map shownExpected) ++ "]")] } fun _ => True :=
  .report _

theorem contains_str (ns : List Node) (t : String) :
    (NameSet.ofList ns).contains (.str t) = ns.any fun n => n.isName t := by
  rw [Bool.eq_iff_iff, NameSet.contains_ofList, any_eq_true]
  simp only [Node.same_text]

theorem any_members (ns : List Node) (t : String) :
    ((NameSet.ofList ns).members.any fun n => n.isName t) = ns.any fun n => n.isName t := by
  have hcontains := contains_str ns t
  simpa only [NameSet.contains, Node.same_text] using hcontains

/-- What is looked for among the types that are known is looked for among all that the
document imports. -/
theorem typeNames_of_informed {types : Node.Entries} {symbols names}
    (hkeys : ∀ e ∈ types, ∃ name, e.1 = Node.str name)
    (htypes : ∀ t, types.hasField t = true → t ∈ S.types)
    (hknown : ∀ t ∈ S.types, ((Language.distinct (types.keys ++ symbols)).any fun n =>
      n.isName t) = true)
    (h : Node.sorted? (Language.distinct (types.keys ++ symbols)) = some names) :
    Node.shownList names = Node.shownList (S.typeNames symbols) := by
  unfold Language.distinct at h hknown
  unfold Scene.typeNames Language.distinct
  cases hS : S.types with
  | nil =>
    have hnone : types = [] := by
      cases types with
      | nil => rfl
      | cons e rest =>
        obtain ⟨name, hname⟩ := hkeys e (by simp)
        have hmem := htypes name (by simp [Node.Entries.hasField, hname, Node.isName])
        rw [hS] at hmem
        cases hmem
    rw [hnone] at h
    simp only [Node.Entries.keys, map_nil, nil_append] at h
    simp only [isEmpty_nil, if_true, h, Option.getD_some]
  | cons first rest =>
    -- one of the names is a text, so all of them are
    obtain ⟨n, hn, hname⟩ := any_eq_true.mp (hknown first (by simp [hS]))
    obtain ⟨styled, rfl⟩ := Node.isName_iff.mp hname
    have htexts := Node.isText_of_sorted h hn rfl
    rw [NameSet.eq_members_of_sorted h htexts, ← hS]
    have hne : S.types.isEmpty = false := by rw [hS]; rfl
    rw [hne]
    simp only [Bool.false_eq_true, if_false]
    rw [Node.shownList_texts htexts, Node.shownList_texts fun n hn => (mem_filter.mp hn).2]
    have hfilter : ∀ ns : List Node, (ns.filter Node.isText).filterMap Node.text? =
        ns.filterMap Node.text? := by
      intro ns
      rw [filterMap_filter]
      congr 1
      funext n
      cases n <;> rfl
    have hsame : (NameSet.ofList (types.keys ++ symbols)).members.filterMap Node.text? =
        (NameSet.ofList (S.types.map Node.str ++ symbols)).members.filterMap Node.text? := by
      refine NameSet.texts_eq fun t => ?_
      have hall := hknown t
      rw [any_members, any_append, Bool.or_eq_true] at hall
      have hkeys : ((types.keys).any fun n => n.isName t) = types.hasField t := by
        rw [Node.Entries.keys, any_map]
        rfl
      have hstr : ((S.types.map Node.str).any fun n => n.isName t) = true ↔ t ∈ S.types := by
        rw [any_map, any_eq_true]
        exact ⟨fun ⟨u, hu, heq⟩ => eq_of_beq heq ▸ hu, fun ht => ⟨t, ht, beq_self_eq_true t⟩⟩
      rw [contains_str, contains_str, any_append, any_append, Bool.eq_iff_iff,
        Bool.or_eq_true, Bool.or_eq_true, hstr, hkeys]
      rw [hkeys] at hall
      constructor
      · exact Or.imp_left (htypes t)
      · rintro (ht | ht)
        · exact hall ht
        · exact .inr ht
    rw [hfilter, hsame]

theorem visitDataType_finds (symbols : List Node) (node : Node) (value : Option Span) :
    Finds S ctx (visitDataType symbols node value) { problems := S.typeProblems symbols node value }
      fun _ => True := by
  intro s v s' hends hs
  unfold visitDataType Scene.typeProblems at *
  cases hnode : node.text? with
  | none => rw [hnode] at hends; cases hends
  | some text =>
    simp only [hnode] at hends ⊢
    obtain ⟨a, s₁, hget, hends⟩ := hends.bind
    obtain ⟨rfl, rfl⟩ := hget.get
    split at hends
    · obtain ⟨_, _, hthrow, _⟩ := hends.bind
      cases hthrow
    unfold Language.distinct at hends
    generalize hname : bareTypeName text = name at hends ⊢
    have hkeys : ((Node.Entries.keys s₁.1.types).any fun n => n.isName name) =
        Node.Entries.hasField s₁.1.types name := by
      rw [Node.Entries.keys, any_map]
      rfl
    obtain ⟨_, s₃, hexpect, hhint⟩ := hends.bind
    unfold expectKnown at hexpect
    split at hexpect
    · rename_i hknown
      rw [Bool.not_eq_true', any_members, any_append, Bool.or_eq_false_iff, hkeys] at hknown
      obtain ⟨names, s₂, hnames, hreport⟩ := hexpect.bind
      obtain ⟨hnames, rfl⟩ := hnames.lift
      have hreported : Found S ctx { problems := [expecting value names] } s₂ s₃ :=
        (Finds.report _ _ _ _ hreport hs).1
      have hhinted : Found S ctx {} s₃ s' := (Finds.hint _ _ _ _ _ hhint hreported.standing).1
      have hfound := hreported.trans hhinted
      cases hdoubt : S.doubtful value with
      | true =>
        have hdoubted : S.Doubted (expecting value names) := ⟨value, names, rfl, hdoubt⟩
        exact ⟨hfound.doubt (by simpa using hdoubted), trivial⟩
      | false =>
        refine ⟨hfound.congr ?_ (fun _ => Iff.rfl) rfl rfl, trivial⟩
        intro hinformed
        obtain rfl := hhint.modify
        obtain rfl := hreport.modify
        -- a type that is imported was known, and this name was not
        have hall := hinformed.hints _ _ _ (mem_append_right _ (mem_singleton_self _)) hdoubt
        have hnew : S.types.contains name = false := by
          refine Bool.eq_false_iff.mpr fun hmem => ?_
          have hany := hall name (contains_iff_mem.mp hmem)
          rw [any_members, any_append, hkeys, hknown.1, hknown.2] at hany
          cases hany
        rw [hnew, hknown.2]
        unfold expecting
        rw [typeNames_of_informed hs.typeKeys hinformed.types hall (inOrder_eq hnames)]
        exact .refl _
    · rename_i hknown
      rw [Bool.not_eq_true, Bool.not_eq_false', any_members, any_append, hkeys] at hknown
      obtain ⟨-, rfl⟩ := hexpect.pure
      have hhinted : Found S ctx {} s₃ s' := (Finds.hint _ _ _ _ _ hhint hs).1
      refine ⟨hhinted.congr ?_ (fun _ => Iff.rfl) rfl rfl, trivial⟩
      intro hinformed
      obtain rfl := hhint.modify
      have hlisted : (S.types.contains name || symbols.any fun k => k.isName name) = true := by
        rw [Bool.or_eq_true] at hknown ⊢
        exact hknown.imp_left fun htype => contains_iff_mem.mpr (hinformed.types name htype)
      rw [hlisted, if_pos rfl, ite_self]

/-! ## Links -/

theorem follow_finds (hS : S.Sound) (target : Node) (value : Option Span) :
    Finds S ctx (Walk.withLinks (S.env.workspace.followNode S.env.doc target value)) {}
      fun v => S.follow target value = .ok v := by
  intro s v s' hends hs
  obtain ⟨earlier, hreader⟩ := hs.reader
  obtain ⟨a, r⟩ := s
  obtain ⟨a', r'⟩ := s'
  obtain rfl : r = S.after earlier := hreader
  generalize hread : S.env.workspace.followNode S.env.doc target value = read at hends
  have hrun : (((read.run.run (S.after earlier)).1, a), (read.run.run (S.after earlier)).2) =
      ((.ok v, a'), r') := hends
  obtain ⟨⟨hv, rfl⟩, rfl⟩ : ((read.run.run (S.after earlier)).1 = .ok v ∧ a = a') ∧
      (read.run.run (S.after earlier)).2 = r' := by
    simpa only [Prod.mk.injEq] using hrun
  rw [← hread, Scene.after, hS.steady] at hv
  have hrefl : Found S ctx {} (a, S.after earlier) (a, S.after earlier) := .refl hs
  refine ⟨⟨⟨⟨earlier ++ [(target, value)], ?_⟩, hs.namespaces, hs.typeKeys⟩, hrefl.hints, hrefl.stepCount,
    hrefl.workflowCount, fun _ => .of_perm (by simp), hrefl.types, hrefl.steps, hrefl.workflows⟩, hv⟩
  rw [← hread, Scene.after, Scene.after, linksAfter, linksAfter, foldl_append]
  rfl

theorem visitLink_finds (hS : S.Sound) (target extension value) (asHint : Link → Hint) :
    Finds S ctx (visitLink S.env target extension value asHint)
      { problems := S.linkProblems target value } fun n => n = S.followed target value := by
  refine .nothing_bind (follow_finds hS target value) ?_
  rintro ⟨l, ds⟩ hfollow
  simp only [Scene.linkProblems, Scene.followed, hfollow, Except.toOption, Option.map_some, Option.getD_some]
  rw [← Findings.append_empty { problems := ds }]
  refine .bind (.reportAll ds) fun _ _ => ?_
  exact .nothing_bind (.hint value _) fun _ _ => .pure rfl

theorem put_finds (name : String) (type : Node) :
    Finds S ctx (modify fun a => { a with types := Node.Entries.put a.types (.str name) type })
      { imports := [name] } fun _ => True := by
  intro s v s' hends hs
  obtain rfl := hends.modify
  have hrefl : Found S ctx {} s s := .refl hs
  refine ⟨⟨⟨hs.reader, hs.namespaces, ?_⟩, hrefl.hints, hrefl.stepCount, hrefl.workflowCount,
    fun _ => .of_perm (by simp), ?_, hrefl.steps, hrefl.workflows⟩, trivial⟩
  · intro e he
    unfold Node.Entries.put at he
    split at he
    · obtain ⟨e', he', rfl⟩ := mem_map.mp he
      obtain ⟨n, hn⟩ := hs.typeKeys e' he'
      refine ⟨n, ?_⟩
      split <;> exact hn
    · rcases mem_append.mp he with he | he
      · exact hs.typeKeys e he
      · exact ⟨name, by rw [mem_singleton.mp he]⟩
  · intro t
    rw [Node.hasField_put, mem_singleton, Node.isName, beq_iff_eq, eq_comm (a := t)]

theorem visitTypeLink_finds (hS : S.Sound) (target : Node) (value : Option Span) :
    Finds S ctx (visitTypeLink S.env target value)
      { problems := S.linkProblems target value
        imports := importedName target (S.followed target value) }
      fun n => n = definition (S.followed target value) := by
  have hsplit : ({ problems := S.linkProblems target value
                   imports := importedName target (S.followed target value) } : Findings) =
      { problems := S.linkProblems target value } ++
        { imports := importedName target (S.followed target value) } := by
    simp only [Findings.append_eq, append_nil, nil_append, Option.or_none]
  rw [hsplit]
  refine .bind (visitLink_finds hS target none value .typeLink) fun n hn => ?_
  subst hn
  generalize S.followed target value = n
  cases n with
  | map form es =>
    unfold importedName definition
    dsimp only
    split
    · rename_i hname
      simp only [hname]
      exact .pure rfl
    · rename_i name styled hname
      simp only [hname]
      rw [← Findings.append_empty { imports := _ }]
      exact .bind (put_finds _ _) fun _ _ => .pure rfl
    · exact .throw _
  | _ => exact .pure rfl

end CwlService.Analysis
