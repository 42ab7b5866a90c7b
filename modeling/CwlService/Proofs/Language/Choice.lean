import CwlService.Proofs.Language.Inference
import Mathlib.Data.List.Forall2

/-! # Which of the allowed types decides

Every allowed type answers for itself how well a node fits it. The answers are asked for in
order, and no more are asked for once a type fits; still the node is taken for what the least
answer says, by fit first and by position then, as if all of them had been compared. A node that
names its class is decided by the first type that has this name or may be any. -/
namespace CwlService

open List

/-! ## What a type answers -/

/-- A value that passes for a truth value or a whole number, which are not looked at closely. -/
def Node.passesForNumber : Node → Bool
  | .null | .text .. | .bool _ | .int .. => true
  | _ => false

/-- A type that can answer: a plain value, or one whose check comes to a verdict. -/
def CwlType.Judges (node : Node) (keyed : Bool) (map : Option MapKey) (t : CwlType) : Prop :=
  ∃ name, t.name? = .ok name ∧
    (name.isPlainName = true ∨ ∃ v, t.check? node keyed map = .ok (some v))

/-- What a type answers about a node. Plain values answer by their names. A text only may be a
string, as it may be an expression as well. -/
inductive Answers (node : Node) (keyed : Bool) (map : Option MapKey) (t : CwlType) :
    Verdict → Prop where
  | absent {name} (hname : t.name? = .ok name) (hplain : name.isName "null" = true) :
    Answers node keyed map t ⟨.absent t, if node.isNull then .yes else .no, none⟩
  | string {name} (hname : t.name? = .ok name) (hplain : name.isName "string" = true) :
    Answers node keyed map t
      ⟨.typed t, if node.isNull then .yes else if node.isText then .maybe else .no, none⟩
  | number {name} (hname : t.name? = .ok name)
      (hplain : (["boolean", "int", "long"].any name.isName) = true) :
    Answers node keyed map t ⟨.typed t, if node.passesForNumber then .yes else .no, none⟩
  | checked {name v} (hname : t.name? = .ok name) (hplain : name.isPlainName = false)
      (hcheck : t.check? node keyed map = .ok (some v)) :
    Answers node keyed map t v

/-- Whether a node has a key. -/
def isKeyed (key : Option Node) : Bool := key.any fun k => !k.isNull

variable {vs : List Verdict}

section

variable {node : Node} {keyed : Bool} {map : Option MapKey} {t : CwlType} {v : Verdict}

theorem exists_answer (h : t.Judges node keyed map) : ∃ v, Answers node keyed map t v := by
  obtain ⟨name, hname, hjudges⟩ := h
  cases hplain : name.isPlainName with
  | false =>
    obtain ⟨v, hv⟩ := hjudges.resolve_left (by simp [hplain])
    exact ⟨v, .checked hname hplain hv⟩
  | true =>
    simp only [Node.isPlainName, any_cons, Bool.or_eq_true] at hplain
    rcases hplain with hnull | hstring | hnumber
    · exact ⟨_, .absent hname hnull⟩
    · exact ⟨_, .string hname hstring⟩
    · exact ⟨_, .number hname (by simpa [Bool.or_eq_true] using hnumber)⟩

theorem checkType_of_answers (h : Answers node keyed map t v) :
    checkType node keyed map t = .ok (v, v.fit == .yes) := by
  unfold checkType
  cases h with
  | absent hname hplain =>
    obtain ⟨styled, rfl⟩ := Node.isName_iff.mp hplain
    rw [hname]
    cases node <;> rfl
  | string hname hplain =>
    obtain ⟨styled, rfl⟩ := Node.isName_iff.mp hplain
    rw [hname]
    cases node <;> rfl
  | number hname hplain =>
    simp only [any_cons, any_nil, Bool.or_false, Bool.or_eq_true] at hplain
    rw [hname]
    rcases hplain with h | h | h <;> obtain ⟨styled, rfl⟩ := Node.isName_iff.mp h <;>
      cases node <;> rfl
  | checked hname hplain hcheck =>
    simp only [Node.isPlainName, any_cons, any_nil, Bool.or_false, Bool.or_eq_false_iff] at hplain
    obtain ⟨hnull, hstring, hboolean, hint, hlong⟩ := hplain
    rw [hname, hcheck]
    show (if _ then _ else _) = _
    simp [hnull, hstring, hboolean, hint, hlong, pure, Except.pure, bind, Except.bind]

/-! ## All answers in order -/

/-- The first answer that fits stands alone; without one, all answers stand. -/
def stopped (vs : List Verdict) : List Verdict :=
  match vs.find? fun v => v.fit == .yes with
  | some v => [v]
  | none => vs

variable {ts : List CwlType}

theorem checkInOrder_of_answers (h : Forall₂ (Answers node keyed map) ts vs) (acc : List Verdict)
    (hacc : ∀ v ∈ acc, v.fit ≠ .yes) :
    checkInOrder node keyed map acc ts = .ok (stopped (acc.reverse ++ vs)) := by
  induction h generalizing acc with
  | nil =>
    have hnone : acc.reverse.find? (fun v => v.fit == .yes) = none := by
      simpa [find?_eq_none] using hacc
    simp [checkInOrder, stopped, hnone, pure, Except.pure]
  | @cons t v ts vs hv _ ih =>
    unfold checkInOrder
    rw [checkType_of_answers hv]
    by_cases hyes : v.fit = .yes
    · have hfound : (acc.reverse ++ v :: vs).find? (fun v => v.fit == .yes) = some v := by
        rw [find?_append, find?_eq_none.mpr (by simpa using hacc)]
        simp [hyes]
      simp [stopped, hfound, hyes, bind, Except.bind, pure, Except.pure]
    · have hmore : ∀ w ∈ v :: acc, w.fit ≠ .yes := forall_mem_cons.mpr ⟨hyes, hacc⟩
      simpa [hyes, bind, Except.bind] using ih (v :: acc) hmore

/-- To stop at the first answer that fits changes nothing. -/
theorem choose_stopped (vs : List Verdict) : choose (stopped vs) = choose vs := by
  unfold stopped
  split
  · rename_i v hv
    have hyes : (v.fit == .yes) = true := by simpa using find?_some hv
    simp [choose, hv, hyes]
  · rfl

/-! ## The least answer -/

/-- The better a node fits, the lower. -/
def Fit.rank : Fit → Nat
  | .yes => 0
  | .maybe => 1
  | .no => 2

/-- The answer at a position is the least: no other fits better, and none that fits as well is
earlier. -/
def LeastAt (vs : List Verdict) (i : Nat) (v : Verdict) : Prop :=
  vs[i]? = some v ∧ ∀ j w, vs[j]? = some w →
    v.fit.rank < w.fit.rank ∨ v.fit.rank = w.fit.rank ∧ i ≤ j

/-- The first answer of a fit is the least if there is no better one. -/
theorem leastAt_of_find? {fit} (hv : vs.find? (fun v => v.fit == fit) = some v)
    (hbest : ∀ w ∈ vs, fit.rank ≤ w.fit.rank) : ∃ i, LeastAt vs i v ∧ v.fit = fit := by
  obtain ⟨hfit, before, after, rfl, hbefore⟩ := find?_eq_some_iff_append.mp hv
  have hv : v.fit = fit := by simpa using hfit
  refine ⟨before.length, ⟨by simp, fun j w hj => ?_⟩, hv⟩
  have hle : v.fit.rank ≤ w.fit.rank := hv ▸ hbest w (mem_of_getElem? hj)
  rcases Nat.lt_or_ge j before.length with hlt | hge
  · -- an earlier answer is of another fit
    rw [getElem?_append_left hlt] at hj
    have hother := hbefore w (mem_of_getElem? hj)
    refine .inl (Nat.lt_of_le_of_ne hle fun heq => ?_)
    rw [hv] at heq
    revert hother heq
    cases fit <;> cases w.fit <;> simp [Fit.rank]
  · exact (Nat.lt_or_eq_of_le hle).imp_right fun heq => ⟨heq, hge⟩

/-- How a type is told that was expected: by its name, or the type itself for the alternative that
nothing is there. -/
def CwlType.ToldAs (t : CwlType) (e : Expected) : Prop :=
  ∃ name, t.name? = .ok name ∧ e = if name.isName "null" then .type t else .name name

/-- What a node is taken for, given what the allowed types answer. -/
inductive Chosen (allowed : List CwlType) (vs : List Verdict) : Meaning → Prop where
  | least {i : Nat} {v} (hleast : LeastAt vs i v) (hfit : v.fit ≠ .no) :
    Chosen allowed vs v.meaning
  | alone {v : Verdict} (hno : v.fit = .no) (halone : vs = [v]) : Chosen allowed vs v.meaning
  | unknown {expected} (hno : ∀ v ∈ vs, v.fit = .no) (hmany : vs.length ≠ 1)
      (hexpected : Forall₂ CwlType.ToldAs allowed expected) :
    Chosen allowed vs (.unknown (.str "(unknown)") expected)

/-- A check that a node fails is about the type itself. -/
theorem CwlType.check?_no (self : CwlType) (node : Node) (keyed : Bool) (map : Option MapKey) :
    Gives (fun v? => ∀ v, v? = some v → v.fit = .no → v.meaning = .typed self)
      (self.check? node keyed map) := by
  have hgives : ∀ {v : Verdict}, (v.fit = .no → v.meaning = .typed self) →
      Gives (fun v? => ∀ v, v? = some v → v.fit = .no → v.meaning = .typed self) (pure (some v)) := by
    intro v hv
    refine .pure fun w hw => ?_
    cases hw
    exact hv
  cases self with
  | base | field => exact .pure (by simp)
  | any => exact hgives (by simp [Verdict.yes])
  | expression =>
    cases node <;> first | exact hgives fun _ => rfl | skip
    refine hgives ?_
    split <;> simp [Verdict.yes, Verdict.no]
  | enum name symbols => cases node <;> exact hgives (by simp [Verdict.yes, Verdict.no])
  | array name items =>
    refine hgives ?_
    split <;> simp [Verdict.yes, Verdict.no]
  | listOrMap name items key => cases node <;> exact hgives (by simp [Verdict.yes, Verdict.no])
  | record name documented fields =>
    refine .map (P := fun v => v.fit = .no → v.meaning = .typed (.record name documented fields))
      ?_ fun v hv w hw => Option.some.inj hw ▸ hv
    unfold checkRecord
    dsimp only
    split
    · exact .pure fun _ => rfl
    · split
      · exact .pure (by simp [Verdict.yes])
      · refine .bind (.any _) fun _ _ => .pure ?_
        split
        · simp
        · split <;> simp [Verdict.yes]
    · refine .bind (.any _) fun _ _ => ?_
      split
      · refine .ite (fun _ => .ite (fun _ => .throw_bind _ _) fun _ => ?_) fun _ => .pure fun _ => rfl
        exact .ite (fun _ => .pure (by simp [Verdict.yes])) fun _ => .pure fun _ => rfl
      · exact .pure fun _ => rfl
  | unresolved | union | missing => exact .throw _

theorem label_of_answers (h : Answers node keyed map t v) (hno : v.fit = .no) :
    ∃ e, v.meaning.label = .ok e ∧ t.ToldAs e := by
  have htyped : ∀ {name : Node}, t.name? = .ok name → name.isName "null" = false →
      ∃ e, (Meaning.typed t).label = .ok e ∧ t.ToldAs e := by
    intro name hname hnull
    exact ⟨.name name, by simp [Meaning.label, hname, bind, Except.bind, pure, Except.pure],
      name, hname, by simp [hnull]⟩
  cases h with
  | absent hname hplain => exact ⟨.type t, rfl, _, hname, by simp [hplain]⟩
  | string hname hplain =>
    obtain ⟨styled, rfl⟩ := Node.isName_iff.mp hplain
    exact htyped hname rfl
  | @number name hname hplain =>
    refine htyped hname ?_
    cases name <;> simp_all [Node.isName]
    rcases hplain with rfl | rfl | rfl <;> decide
  | checked hname hplain hcheck =>
    rw [t.check?_no node keyed map _ hcheck v rfl hno]
    refine htyped hname ?_
    simp only [Node.isPlainName, any_cons, Bool.or_eq_false_iff] at hplain
    exact hplain.1

theorem labels_of_answers (h : Forall₂ (Answers node keyed map) ts vs) (hno : ∀ v ∈ vs, v.fit = .no) :
    ∃ expected, vs.mapM (fun v => v.meaning.label) = .ok expected ∧
      Forall₂ CwlType.ToldAs ts expected := by
  induction h with
  | nil => exact ⟨[], rfl, .nil⟩
  | cons hv _ ih =>
    obtain ⟨hno, hrest⟩ := forall_mem_cons.mp hno
    obtain ⟨e, he, htold⟩ := label_of_answers hv hno
    obtain ⟨expected, hexpected, hall⟩ := ih hrest
    refine ⟨e :: expected, ?_, .cons htold hall⟩
    rw [mapM_cons, he, hexpected]
    rfl

theorem choose_of_answers (h : Forall₂ (Answers node keyed map) ts vs) :
    ∃ m, choose vs = .ok m ∧ Chosen ts vs m := by
  unfold choose
  split
  · rename_i v hv
    obtain ⟨i, hleast, hfit⟩ := leastAt_of_find? hv fun w _ => Nat.zero_le _
    exact ⟨v.meaning, rfl, .least hleast (by simp [hfit])⟩
  · rename_i hyes
    have hrank : ∀ w ∈ vs, w.fit ≠ .yes := by simpa using hyes
    split
    · rename_i v hv
      have hbest : ∀ w ∈ vs, Fit.maybe.rank ≤ w.fit.rank := by
        intro w hw
        have := hrank w hw
        revert this
        cases w.fit <;> simp [Fit.rank]
      obtain ⟨i, hleast, hfit⟩ := leastAt_of_find? hv hbest
      exact ⟨v.meaning, rfl, .least hleast (by simp [hfit])⟩
    · rename_i hmaybe
      have hno : ∀ w ∈ vs, w.fit = .no := by
        intro w hw
        have hneither : w.fit ≠ .maybe := by
          simp only [find?_eq_none, beq_iff_eq] at hmaybe
          exact hmaybe w hw
        have := hrank w hw
        revert this hneither
        cases w.fit <;> simp
      split
      · rename_i v
        exact ⟨v.meaning, rfl, .alone (hno v (mem_singleton_self v)) rfl⟩
      · rename_i hmany
        obtain ⟨expected, hexpected, hall⟩ := labels_of_answers h hno
        refine ⟨.unknown (.str "(unknown)") expected, by rw [hexpected]; rfl, .unknown hno ?_ hall⟩
        intro hlength
        obtain ⟨v, hv⟩ := length_eq_one_iff.mp hlength
        exact hmany v hv

end

/-! ## Types by name -/

/-- A type that decides about a node of a class: any type, or the one of this name. -/
def CwlType.Decides (c : String) (t : CwlType) : Prop :=
  t = .any ∨ ∃ name, t.name? = .ok name ∧ name.isName c = true

/-- What a type that decides makes of a node of a class: where it may be any, the type of the
language that has this name. -/
def Language.decided (l : Language) (c : Node) : CwlType → Meaning
  | .any =>
    match l.find? c with
    | some t => .typed t
    | none => .unknown c (l.names.map .name)
  | t => .typed t

section

variable (l : Language) {c : String} (styled : Bool)

variable {t : CwlType}

theorem findNamed_cons (hany : t ≠ .any) {name} (hname : t.name? = .ok name)
    (all rest : List CwlType) :
    findNamed l (.text c styled) all (t :: rest) =
      if name.isName c then .ok (.yes (.typed t)) else findNamed l (.text c styled) all rest := by
  have hstep : findNamed l (.text c styled) all (t :: rest) = (do
      let n ← t.name?
      if n.same (.text c styled) then pure (.yes (.typed t))
      else findNamed l (.text c styled) all rest) := by
    cases t with
    | any => exact absurd rfl hany
    | _ => rfl
  rw [hstep, hname, ← Node.same_text name c styled]
  rfl

theorem findNamed_decided (ht : t.Decides c) (all after : List CwlType) :
    ∀ before : List CwlType, (∀ u ∈ before, ¬u.Decides c ∧ ∃ name, u.name? = .ok name) →
      ∃ v, findNamed l (.text c styled) all (before ++ t :: after) = .ok v ∧
        v.meaning = l.decided (.text c styled) t
  | [], _ => by
    by_cases hany : t = .any
    · subst hany
      unfold findNamed Language.decided
      simp only [nil_append, Node.isKey, Bool.not_true, Bool.false_eq_true, if_false]
      cases l.find? (.text c styled) with
      | some found => exact ⟨_, rfl, rfl⟩
      | none => exact ⟨_, rfl, rfl⟩
    · obtain ⟨name, hname, hclass⟩ := ht.resolve_left hany
      refine ⟨.yes (.typed t), ?_, ?_⟩
      · rw [nil_append, findNamed_cons l styled hany hname, if_pos hclass]
      · cases t with
        | any => exact absurd rfl hany
        | _ => rfl
  | u :: before, hbefore => by
    obtain ⟨⟨hnot, name, hname⟩, hrest⟩ := forall_mem_cons.mp hbefore
    have hclass : ¬name.isName c = true := fun h => hnot (.inr ⟨name, hname, h⟩)
    rw [cons_append, findNamed_cons l styled (fun h => hnot (.inl h)) hname, if_neg hclass]
    exact findNamed_decided ht all after before hrest

theorem typeNames_eq : ∀ {ts : List CwlType}, (∀ t ∈ ts, ∃ name, t.name? = .ok name) →
    ∃ names, typeNames ts = .ok (names.map .name) ∧ Forall₂ (fun t n => t.name? = .ok n) ts names
  | [], _ => ⟨[], rfl, .nil⟩
  | t :: ts, h => by
    obtain ⟨⟨name, hname⟩, hrest⟩ := forall_mem_cons.mp h
    obtain ⟨names, hnames, hall⟩ := typeNames_eq hrest
    refine ⟨name :: names, ?_, .cons hname hall⟩
    unfold typeNames at hnames ⊢
    rw [mapM_cons, hnames, hname]
    rfl

theorem findNamed_undecided (all) {expected} (hall : typeNames all = .ok expected) : ∀ ts : List CwlType,
      (∀ u ∈ ts, ¬u.Decides c ∧ ∃ name, u.name? = .ok name) →
      findNamed l (.text c styled) all ts = .ok (.no (.unknown (.text c styled) expected))
  | [], _ => by rw [findNamed, hall]; rfl
  | u :: ts, hts => by
    obtain ⟨⟨hnot, name, hname⟩, hrest⟩ := forall_mem_cons.mp hts
    have hclass : ¬name.isName c = true := fun h => hnot (.inr ⟨name, hname, h⟩)
    rw [findNamed_cons l styled (fun h => hnot (.inl h)) hname, if_neg hclass]
    exact findNamed_undecided all hall ts hrest

end

/-! ## Nodes -/

section

variable {l : Language} {node : Node} {allowed : List CwlType} {key : Option Node}
  {map : Option MapKey}

theorem infer_of_answers (hnode : node.isAgain = false) (hnone : explicitType node key map = none)
    (h : Forall₂ (Answers node (isKeyed key) map) allowed vs) :
    infer l node allowed key map = choose vs := by
  have hchecked : checkInOrder node (isKeyed key) map [] allowed = .ok (stopped vs) := by
    simpa using checkInOrder_of_answers h [] nofun
  rw [infer_eq, hnode, hnone, ← choose_stopped vs]
  exact congrArg (· >>= choose) hchecked

theorem infer_of_class (hnode : node.isAgain = false) {c styled}
    (hclass : explicitType node key map = some (.text c styled)) (hcolon : ':' ∉ c.toList) {v}
    (hv : findNamed l (.text c styled) allowed allowed = .ok v) :
    infer l node allowed key map = .ok v.meaning := by
  have hplain : isNamespaced (.text c styled) = .ok false := by
    simpa [isNamespaced, pure, Except.pure] using hcolon
  rw [infer_eq, hnode, hclass]
  simp only [hplain, hv]
  rfl

end

/-- A node without a class is taken for what the least answer of the allowed types says, by fit
and then by position, if it fits or may fit at all; otherwise for what the only type says, or it
is unknown, and the names of all types are told. A node with a class is decided by the first type
that may be any or has the name of the class; if there is none, it is unknown. -/
theorem infer_least (l : Language) {node : Node} {allowed : List CwlType} {key : Option Node}
    {map : Option MapKey} (hnode : node.isAgain = false)
    (hallowed : ∀ t ∈ allowed, t.Judges node (isKeyed key) map) :
    (explicitType node key map = none →
      ∃ vs m, List.Forall₂ (Answers node (isKeyed key) map) allowed vs ∧
        infer l node allowed key map = .ok m ∧ Chosen allowed vs m) ∧
    ∀ c styled, explicitType node key map = some (.text c styled) → ':' ∉ c.toList →
      (∀ before t after, allowed = before ++ t :: after → t.Decides c →
        (∀ u ∈ before, ¬u.Decides c) →
        infer l node allowed key map = .ok (l.decided (.text c styled) t)) ∧
      ((∀ t ∈ allowed, ¬t.Decides c) →
        ∃ names, List.Forall₂ (fun t n => t.name? = .ok n) allowed names ∧
          infer l node allowed key map = .ok (.unknown (.text c styled) (names.map .name))) := by
  have hnamed : ∀ t ∈ allowed, ∃ name, t.name? = .ok name := by
    intro t ht
    obtain ⟨name, hname, _⟩ := hallowed t ht
    exact ⟨name, hname⟩
  constructor
  · intro hnone
    obtain ⟨vs, hvs⟩ : ∃ vs, Forall₂ (Answers node (isKeyed key) map) allowed vs := by
      clear hnamed
      induction allowed with
      | nil => exact ⟨[], .nil⟩
      | cons t ts ih =>
        obtain ⟨ht, hts⟩ := forall_mem_cons.mp hallowed
        obtain ⟨v, hv⟩ := exists_answer ht
        obtain ⟨vs, hvs⟩ := ih hts
        exact ⟨v :: vs, .cons hv hvs⟩
    obtain ⟨m, hm, hchosen⟩ := choose_of_answers hvs
    exact ⟨vs, m, hvs, (infer_of_answers hnode hnone hvs).trans hm, hchosen⟩
  · intro c styled hclass hcolon
    constructor
    · rintro before t after rfl ht hbefore
      have hundecided : ∀ u ∈ before, ¬u.Decides c ∧ ∃ name, u.name? = .ok name := fun u hu =>
        ⟨hbefore u hu, hnamed u (mem_append_left _ hu)⟩
      obtain ⟨v, hv, hmeaning⟩ := findNamed_decided l styled ht (before ++ t :: after) after before
        hundecided
      rw [infer_of_class hnode hclass hcolon hv, hmeaning]
    · intro hnot
      obtain ⟨names, hnames, hall⟩ := typeNames_eq hnamed
      have hv := findNamed_undecided l styled allowed hnames allowed fun u hu =>
        ⟨hnot u hu, hnamed u hu⟩
      exact ⟨names, hall, infer_of_class hnode hclass hcolon hv⟩

/-- Where an expression is asked for after a string, which a text may be as well. -/
def lateExpression : List CwlType := [.base (.str "string"), .expression]

/-- Types of processes with any type between them. -/
def anyBetween : List CwlType :=
  [.record (.str "Workflow") true [], .any, .record (.str "Tool") true []]

/-- A language with a tool of its own. -/
def toolLanguage : Language := ⟨[(.str "Tool", .record (.str "Tool") false [("id", true, [])])]⟩

def toolNode : Node := .placedMap [("class", .str "Tool")]

/-- A text with an expression is one, although it may be a string first. A tool is decided by any
type, before the one of its name. -/
theorem infer_least_sample :
    ((∀ t ∈ lateExpression, t.Judges (.str "$(a)") false none) ∧
      ∃ vs m, List.Forall₂ (Answers (.str "$(a)") false none) lateExpression vs ∧
        infer toolLanguage (.str "$(a)") lateExpression none none = .ok m ∧
        Chosen lateExpression vs m ∧ m = .expression "$(a)") ∧
    (∀ t ∈ anyBetween, t.Judges toolNode false none) ∧
      infer toolLanguage toolNode anyBetween none none =
        .ok (.typed (.record (.str "Tool") false [("id", true, [])])) := by
  have hlate : ∀ t ∈ lateExpression, t.Judges (.str "$(a)") false none :=
    forall_mem_cons.mpr ⟨⟨_, rfl, .inl (by decide)⟩,
      forall_mem_singleton.mpr ⟨_, rfl, .inr ⟨_, rfl⟩⟩⟩
  have hbetween : ∀ t ∈ anyBetween, t.Judges toolNode false none :=
    forall_mem_cons.mpr ⟨⟨_, rfl, .inr ⟨_, rfl⟩⟩, forall_mem_cons.mpr
      ⟨⟨_, rfl, .inr ⟨_, rfl⟩⟩, forall_mem_singleton.mpr ⟨_, rfl, .inr ⟨_, rfl⟩⟩⟩⟩
  obtain ⟨vs, m, hvs, hm, hchosen⟩ :=
    (@infer_least toolLanguage (.str "$(a)") lateExpression none none rfl hlate).1 rfl
  have hexpression : infer toolLanguage (.str "$(a)") lateExpression none none =
      .ok (.expression "$(a)") := by rfl
  obtain ⟨hdecided, -⟩ :=
    (@infer_least toolLanguage toolNode anyBetween none none rfl hbetween).2 "Tool" false rfl (by decide)
  have hentry : toolLanguage.decided (.str "Tool") .any =
      .typed (.record (.str "Tool") false [("id", true, [])]) := by with_unfolding_all rfl
  refine ⟨⟨hlate, vs, m, hvs, hm, hchosen, ?_⟩, hbetween, ?_⟩
  · exact Except.ok.inj (hm.symm.trans hexpression)
  · rw [← hentry]
    refine hdecided [.record (.str "Workflow") true []] .any _ rfl (.inl rfl) ?_
    refine forall_mem_singleton.mpr ?_
    rintro (hany | ⟨name, hname, hclass⟩)
    · cases hany
    · cases hname
      exact absurd hclass (by decide)

end CwlService
