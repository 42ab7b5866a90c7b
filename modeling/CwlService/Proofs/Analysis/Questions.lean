import CwlService.Document.Basic
import CwlService.Proofs.Language.Inference
import CwlService.Proofs.Language.Resolution

/-! # What is asked on the way through a document

On the way through a document it is asked again and again what a node is taken for. The
types that are allowed then are types of the fields and items of types that answered
earlier questions. So every one of them is at the end of a path that starts at an entry of
the dictionary, however deep in the document the question comes up. -/
namespace CwlService.Analysis

open CwlService.Language

/-! ## Types that are reached -/

/-- A type at the end of a path that starts at an entry of the dictionary. -/
def Reached (l : Language) (t : CwlType) : Prop :=
  ∃ n e ms, l.get? n = some e ∧ e.follow ms = some t

variable {t : CwlType} {l : Language} {q : Question} {other : Inference} {α : Type}
  {next next' : Option Meaning → Walk α} {record : Node}

theorem Reached.step {t'} (h : Reached l t) {m} (ht : t.step m = some t') :
    Reached l t' := by
  obtain ⟨n, e, ms, he, hms⟩ := h
  refine ⟨n, e, ms ++ [m], he, ?_⟩
  rw [CwlType.follow] at hms ⊢
  rw [List.foldlM_append, hms]
  exact (by simpa using ht)

/-- What can be allowed for a node: types that are reached, and nothing in the place of a
process type that is not defined. -/
def Allowable (l : Language) (t : CwlType) : Prop := t = .missing ∨ Reached l t

/-- What a type allows for its items or for one of its fields can be allowed. -/
theorem Allowable.below (h : Allowable l t) {types : List CwlType} (move : Nat → Move)
    (hmove : ∀ i, t.step (move i) = types[i]?) : ∀ u ∈ types, Allowable l u := by
  intro u hu
  obtain ⟨i, hi⟩ := List.mem_iff_getElem?.mp hu
  rw [← hmove] at hi
  rcases h with rfl | h
  · cases hm : move i <;> (rw [hm] at hi; cases hi)
  · exact .inr (h.step hi)

/-! ## Other answers -/

/-- A question about types that can be allowed. -/
def Sensible (l : Language) (q : Question) : Prop := ∀ t ∈ q.allowed, Allowable l t

/-- Another inference gives the same answers to all sensible questions. -/
def Agreeing (l : Language) (other : Inference) : Prop :=
  ∀ q, Sensible l q → other q = l.inference q

theorem inference_gives (hq : Sensible l q) : Gives (fun m => m.TypedIn (Allowable l)) (l.inference q) :=
  infer_gives l q.node q.allowed q.key q.map hq fun n t ht => .inr ⟨n, t, [], ht, rfl⟩

/-- Two visits do the same with what answers sensible questions. -/
def Matching (l : Language) (visit visit' : Visit) : Prop :=
  ∀ m, m.TypedIn (Allowable l) → visit m = visit' m

theorem ask_congr (hother : Agreeing l other) (hq : Sensible l q) {next next' : Meaning → Walk α}
    (hnext : ∀ m, m.TypedIn (Allowable l) → next m = next' m) :
    ((liftM (l.inference q) : Walk Meaning) >>= next) = (liftM (other q) >>= next') := by
  rw [hother q hq]
  cases hm : l.inference q with
  | error f => rfl
  | ok m => exact hnext m (inference_gives hq m hm)

theorem oddFieldMeaning_congr {k written key} (hnone : next none = next' none)
    (hsome : ∀ m, m.TypedIn (Allowable l) → next (some m) = next' (some m)) :
    (oddFieldMeaning record k written key >>= next) = (oddFieldMeaning record k written key >>= next') := by
  unfold oddFieldMeaning
  split
  · dsimp only
    split
    · simp only [pure_bind]
      exact hsome _ trivial
    split
    · rfl
    split
    · rfl
    split
    · simp only [bind_assoc, pure_bind, hnone]
    · simpa only [pure_bind] using hnone
  · split
    · simp only [pure_bind]
      exact hsome _ trivial
    · rfl
  · rfl

/-! ## The way through a document -/

/-- The types of all fields of a record may be allowed somewhere. -/
def AllowableFields (l : Language) (fields : Fields) : Prop :=
  ∀ name required types, fields.get? name = some (required, types) → ∀ t ∈ types, Allowable l t

section

variable {env : Setting} {other : Inference} (hother : Agreeing env.language other)
variable (henv : env.meaning = env.language.inference)

include hother henv

variable {fields : Fields}

theorem fieldMeaning_congr (hf : AllowableFields env.language fields) (name : String) (child : Node)
    (key : Option Span) (hnone : next none = next' none)
    (hsome : ∀ m, m.TypedIn (Allowable env.language) → next (some m) = next' (some m)) :
    (fieldMeaning env record fields name child key >>= next) =
      (fieldMeaning { env with meaning := other } record fields name child key >>= next') := by
  unfold fieldMeaning
  split
  · simp only [pure_bind]
    exact hsome _ trivial
  split
  · simp only [bind_assoc, pure_bind, hnone]
  split
  · simpa only [pure_bind] using hnone
  split
  · simp only [pure_bind]
    exact hsome _ trivial
  split
  · rename_i required types hget
    simp only [bind_assoc, pure_bind, henv]
    refine ask_congr hother ?_ hsome
    exact hf name required types hget
  · dsimp only
    split
    · rfl
    · split
      · simp only [bind_assoc, pure_bind, hnone]
      · simpa only [pure_bind] using hnone

variable {visit visit' : Visit} (hvisit : Matching env.language visit visit')

include hvisit

section

variable {types : List CwlType} (ht : ∀ t ∈ types, Allowable env.language t)

include ht

theorem visitItems_congr (node : Node)
    (ctx : Context) : visitItems env visit types node ctx =
      visitItems { env with meaning := other } visit' types node ctx := by
  unfold visitItems
  refine bind_congr fun parts => ?_
  congr 1
  funext ctx part
  rw [henv]
  refine ask_congr hother ?_ fun m hm => ?_
  · exact ht
  · rw [hvisit m hm]

theorem visitEntry_congr (name : Node)
    (mapKey : MapKey) (ctx : Context) (l : Listing) (e : ListingEntry) :
    visitEntry env visit name types mapKey ctx l e =
      visitEntry { env with meaning := other } visit' name types mapKey ctx l e := by
  unfold visitEntry visitValue
  dsimp only
  rw [henv]
  refine ask_congr hother ?_ fun m hm => ?_
  · exact ht
  · rw [hvisit m hm]

theorem visitListing_congr (name : Node)
    (mapKey : MapKey) (node : Node) (ctx : Context) (value : Option Span) :
    visitListing env visit name types mapKey node ctx value =
      visitListing { env with meaning := other } visit' name types mapKey node ctx value := by
  have hentry : visitEntry env visit name types mapKey =
      visitEntry { env with meaning := other } visit' name types mapKey := by
    funext ctx l e
    exact visitEntry_congr hother henv hvisit ht name mapKey ctx l e
  unfold visitListing
  rw [hentry]

end

theorem visitField_congr (hf : AllowableFields env.language fields)
    (node ctx map key value named entry) : visitField env visit record fields node ctx map key value named entry =
      visitField { env with meaning := other } visit' record fields node ctx map key value named
        entry := by
  refine bind_congr fun spans => bind_congr fun _ => ?_
  have hsome : ∀ m, m.TypedIn (Allowable env.language) →
      visitMeaning visit record entry.1 entry.2 ctx map spans.1 spans.2 named (some m) =
        visitMeaning visit' record entry.1 entry.2 ctx map spans.1 spans.2 named (some m) := by
    intro m hm
    simp only [visitMeaning, hvisit m hm]
  unfold entryMeaning
  split
  · exact fieldMeaning_congr hother henv hf _ entry.2 spans.1 rfl hsome
  · exact oddFieldMeaning_congr rfl hsome

theorem visitRecord_congr {name} (hf : AllowableFields env.language fields) (node : Node)
    (ctx : Context) (map : Option MapKey) (key value : Option Span) :
    visitRecord env visit name fields node ctx map key value =
      visitRecord { env with meaning := other } visit' name fields node ctx map key value := by
  have hfield : visitField env visit name fields =
      visitField { env with meaning := other } visit' name fields := by
    funext node ctx map key value named entry
    exact visitField_congr hother henv hvisit hf node ctx map key value named entry
  unfold visitRecord
  rw [hfield]

theorem visitOne_congr :
    Matching env.language (visitOne env visit) (visitOne { env with meaning := other } visit') := by
  intro m hm
  funext node ctx map key value
  unfold visitOne
  cases m with
  | typed t =>
    cases t with
    | array name types =>
      exact visitItems_congr hother henv hvisit (hm.below .item fun _ => rfl) node ctx
    | listOrMap name types mapKey =>
      exact visitListing_congr hother henv hvisit (hm.below .item fun _ => rfl) name mapKey node ctx value
    | record name documented fields =>
      refine visitRecord_congr hother henv hvisit ?_ node ctx map key value
      intro field required types hget
      exact hm.below (.field field) fun i => by simp [CwlType.step, hget]
    | base | any | expression | enum | field | unresolved | union | missing => rfl
  | absent | dataType | expression | linkedFile | linkedType | namespaced | unknown => rfl

end

theorem visitTo_congr {env} (hother : Agreeing env.language other)
    (henv : env.meaning = env.language.inference) (depth : Nat) :
    Matching env.language (visitTo env depth) (visitTo { env with meaning := other } depth) := by
  induction depth with
  | zero => intro m _; rfl
  | succ depth ih => exact visitOne_congr hother henv ih

theorem walk_congr {env} (hother : Agreeing env.language other)
    (henv : env.meaning = env.language.inference) (loaded : Yaml.Reader.Loaded) :
    walk env loaded = walk { env with meaning := other } loaded := by
  unfold walk
  dsimp only
  rw [henv]
  refine ask_congr hother ?_ fun m hm => ?_
  · intro t ht
    obtain ⟨n, _, rfl⟩ := List.mem_map.mp ht
    cases hn : env.language.get? n with
    | none => exact .inl rfl
    | some e => exact .inr ⟨n, e, [], hn, rfl⟩
  · rw [visitTo_congr hother henv _ m hm]

/-! ## Questions that are asked -/

/-- A question is asked if another answer to it makes a difference. -/
def Asks {α : Type} (run : Inference → α) (inference : Inference) (q : Question) : Prop :=
  ∃ other : Inference, (∀ q', q' ≠ q → other q' = inference q') ∧ run other ≠ run inference

/-- The way through a document, with the answers that an inference gives. -/
def wayThrough (workspace : Workspace) (doc : Node) (l : Language) (loaded : Yaml.Reader.Loaded)
    (start : Analysis) (site : Site) (meaning : Inference) : (Except Fault Unit × Analysis) × Site :=
  (Document.walkThrough { workspace, doc, language := l, meaning } loaded start).run site

theorem sensible_of_asks {workspace doc loaded start site}
    (hq : Asks (wayThrough workspace doc l loaded start site) l.inference q) :
    Sensible l q := by
  obtain ⟨other, hother, hdiffers⟩ := hq
  refine Classical.byContradiction fun hsenseless => hdiffers ?_
  have hagreeing : Agreeing l other := by
    intro q' hq'
    refine hother q' ?_
    rintro rfl
    exact hsenseless hq'
  have hwalk : walk { workspace, doc, language := l } loaded =
      walk { workspace, doc, language := l, meaning := other } loaded :=
    walk_congr hagreeing rfl loaded
  unfold wayThrough Document.walkThrough
  rw [hwalk]

/-- Every type that is allowed where a question is asked, however deep in a document, is at
the end of a path from the dictionary, and it is a name that stands for nothing exactly if
the path crosses three forward references. -/
theorem asked_unresolved_iff {s : Schema} {l : Language} {log : List LogEntry}
    (h : ofSchema s = .ok (l, log)) (hs : RefersToDefined s) {workspace : Workspace} {doc : Node}
    {loaded : Yaml.Reader.Loaded} {start : Analysis} {site : Site} {q : Question}
    (hq : Asks (wayThrough workspace doc l loaded start site) l.inference q) :
    ∃ R, origins s = .ok (l, R) ∧ ∀ t ∈ q.allowed, t = .missing ∨
      ∃ n e o ms k o', l.get? n = some e ∧ R n = some o ∧ e.follow ms = some t ∧
        o.follow ms = some (k, o') ∧ ((∃ name, t = .unresolved name) ↔ k = 3) := by
  obtain ⟨R, horigins, hagrees, hcreated⟩ := hs.traced h
  refine ⟨R, horigins, fun t ht => ?_⟩
  rcases sensible_of_asks hq t ht with rfl | ⟨n, e, ms, he, hms⟩
  · exact .inl rfl
  refine .inr ?_
  rcases hagrees n with ⟨_, hnone⟩ | ⟨o, u, ho, hu, htells, _⟩
  · rw [hnone] at he
    cases he
  rw [hu] at he
  cases he
  rcases htells.follow_created (hcreated n o ho) ms with
    ⟨_, hnone⟩ | ⟨k, o', t', hfo, hft, _, _, _, _, hraw⟩
  · rw [hnone] at hms
    cases hms
  · rw [hft] at hms
    cases hms
    exact ⟨n, _, o, ms, k, o', hu, ho, hft, hfo, hraw⟩

/-! ## A workflow inside two others -/

def workflowOf (steps : List Node) : Node :=
  .placedMap [("class", .text "Workflow" false), ("steps", .placedList steps)]

def nestedTwice : Node :=
  workflowOf [.placedMap [("run", workflowOf [.placedMap [("run", workflowOf [])]])]]

/-- The way through the nested workflows. -/
def nestedWay (l : Language) : Inference → (Except Fault Unit × Analysis) × Site :=
  wayThrough { files := [], replies := [] } .null l ⟨nestedTwice, []⟩ {}
    { workspace := { files := [], replies := [] } }

/-- The class of the innermost workflow. -/
def innerClass : Question :=
  ⟨.text "Workflow" false, [.unresolved "string"], some (.text "class" false), none⟩

def isInnerClass : Question → Bool
  | ⟨.text "Workflow" false, [.unresolved "string"], some (.text "class" false), none⟩ => true
  | _ => false

theorem eq_innerClass (h : isInnerClass q = true) : q = innerClass := by
  unfold isInnerClass at h
  split at h
  · rfl
  · cases h

/-- Answers as a language does, but for the class of the innermost workflow. -/
def withoutInnerClass (l : Language) : Inference := fun q =>
  if isInnerClass q then .error .endless else l.inference q

def isEndless : (Except Fault Unit × Analysis) × Site → Bool
  | ((.error .endless, _), _) => true
  | _ => false

theorem asks_innerClass (h : isEndless (nestedWay l l.inference) = false)
    (hother : isEndless (nestedWay l (withoutInnerClass l)) = true) :
    Asks (nestedWay l) l.inference innerClass := by
  refine ⟨withoutInnerClass l, ?_, ?_⟩
  · intro q hq
    exact if_neg fun hinner => hq (eq_innerClass hinner)
  · intro hsame
    rw [hsame, h] at hother
    cases hother

theorem refersToDefined_nesting : RefersToDefined nesting := by
  obtain ⟨c, hc, hdefined⟩ : ∃ c, Returns (pass none nesting) Language.start () c ∧
      ∀ n ∈ nesting.references, (c.language.get? n).isSome := by
    refine ⟨_, by unfold Returns; with_unfolding_all rfl, by decide +kernel⟩
  intro b hb
  cases hb.symm.trans hc
  exact hdefined

/-- In a workflow inside two others the class is a text of a type that stands for nothing,
three forward references away from the dictionary. -/
theorem asked_unresolved_iff_nested : ∃ l log R e o ms o', ofSchema nesting = .ok (l, log) ∧
    RefersToDefined nesting ∧ Asks (nestedWay l) l.inference innerClass ∧
    origins nesting = .ok (l, R) ∧ (∃ n, l.get? n = some e ∧ R n = some o) ∧
    e.follow ms = some (.unresolved "string") ∧ o.follow ms = some (3, o') := by
  obtain ⟨l, log, h, hasks⟩ : ∃ l log, ofSchema nesting = .ok (l, log) ∧
      Asks (nestedWay l) l.inference innerClass := by
    refine ⟨_, _, by with_unfolding_all rfl, asks_innerClass (by decide +kernel) (by decide +kernel)⟩
  obtain ⟨R, horigins, hallowed⟩ := asked_unresolved_iff h refersToDefined_nesting hasks
  rcases hallowed (.unresolved "string") (by simp [innerClass]) with
    hmissing | ⟨n, e, o, ms, k, o', hn, ho, hms, hfollow, hraw⟩
  · cases hmissing
  · obtain rfl := hraw.mp ⟨"string", rfl⟩
    exact ⟨l, log, R, e, o, ms, o', h, refersToDefined_nesting, hasks, horigins, ⟨n, hn, ho⟩, hms,
      hfollow⟩

end CwlService.Analysis
