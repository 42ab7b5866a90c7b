import CwlService.Language.Build
import CwlService.Proofs.Language.Inference

/-! # Where steps may stand

In a language in order, the steps of a workflow stand in its field `steps` and nowhere else:
a listing of steps is the type of that field only, and a step is an item of such a listing
only. -/
namespace CwlService

/-- What a type is wanted for. -/
inductive Role where
  | plain
  /-- The steps of a workflow. -/
  | steps
  /-- A step. -/
  | step
deriving DecidableEq

/-- What the types of a field are wanted for. -/
def Role.ofField (isWorkflow : Bool) (name : String) : Role :=
  if isWorkflow && name == "steps" then .steps else .plain

variable {role : Role} {t : CwlType} {l : Language}

namespace CwlType

mutual
/-- Whether a type and those in it stand where they may. Symbols of enumerations are keys. -/
def orderly (role : Role) : CwlType → Bool
  | .enum _ symbols => symbols.all Node.isKey
  | .array _ items => allOrderly .plain items
  | .listOrMap name items _ =>
    if name.isName "steps" then role == .steps && allOrderly .step items
    else allOrderly .plain items
  | .record name _ fields =>
    (!name.isName "WorkflowStep" || role == .step) && fieldsOrderly (name.isName "Workflow") fields
  | _ => true

def allOrderly (role : Role) : List CwlType → Bool
  | [] => true
  | t :: rest => orderly role t && allOrderly role rest

def fieldsOrderly (isWorkflow : Bool) : List (String × Bool × List CwlType) → Bool
  | [] => true
  | (name, _, types) :: rest =>
    allOrderly (.ofField isWorkflow name) types && fieldsOrderly isWorkflow rest
end

variable {types : List CwlType}

theorem allOrderly_iff : allOrderly role types = true ↔ ∀ t ∈ types, t.orderly role = true := by
  induction types with
  | nil => simp [allOrderly]
  | cons t rest ih => rw [allOrderly, Bool.and_eq_true, ih, List.forall_mem_cons]

theorem orderly_of_field {isWorkflow} {fields : Fields} {name required}
    (h : fieldsOrderly isWorkflow fields = true) (hget : fields.get? name = some (required, types)) :
    ∀ t ∈ types, t.orderly (.ofField isWorkflow name) = true := by
  induction fields with
  | nil => cases hget
  | cons f rest ih =>
    obtain ⟨other, r, ts⟩ := f
    rw [fieldsOrderly, Bool.and_eq_true] at h
    rw [Fields.get?, List.lookup_cons] at hget
    split at hget
    · rename_i heq
      cases hget
      rw [eq_of_beq heq]
      exact allOrderly_iff.mp h.1
    · exact ih h.2 hget

theorem orderly_of_plain (h : t.orderly .plain = true) (role : Role) : t.orderly role = true := by
  cases t with
  | listOrMap name items key =>
    rw [orderly] at h ⊢
    split at h
    · cases h
    · rename_i hname
      rwa [if_neg hname]
  | record name documented fields =>
    rw [orderly] at h ⊢
    rw [Bool.and_eq_true] at h ⊢
    refine ⟨?_, h.2⟩
    have hname : name.isName "WorkflowStep" = false := by simpa using h.1
    rw [hname]
    rfl
  | _ => exact h

end CwlType

/-- Whether all types of a language stand where they may; a step may be found by its name. -/
def Language.orderly (l : Language) : Bool :=
  l.types.all fun e => e.2.orderly (if e.1.isName "WorkflowStep" then .step else .plain)

theorem Language.orderly_of_get? (h : l.orderly = true) {name} (hget : l.get? name = some t)
    (hname : name ≠ "WorkflowStep") : t.orderly .plain = true := by
  obtain ⟨e, he, rfl⟩ := Option.map_eq_some_iff.mp hget
  have hkey : e.1.isName name = true := by simpa using List.find?_some he
  have horderly := List.all_eq_true.mp h e (List.mem_of_find?_eq_some he)
  obtain ⟨styled, hs⟩ := Node.isName_iff.mp hkey
  rwa [if_neg] at horderly
  rw [hs]
  simpa [Node.isName] using hname

/-- The steps of a workflow are listed by `id`. -/
def Fields.ListsSteps (fields : Fields) : Prop := ∃ required types predicate,
  fields.get? "steps" = some (required, [.listOrMap (.str "steps") types ⟨.str "id", predicate⟩])

/-- A language in which documents are records by their names, as far as it has them, and the
steps of a workflow are listed by `id`. -/
structure Language.ListsSteps (l : Language) : Prop where
  roots : ∀ t ∈ Language.processTypes, ∀ u, l.get? t = some u →
    ∃ documented fields, u = .record (.str t) documented fields
  steps : ∀ documented fields, l.get? "Workflow" = some (.record (.str "Workflow") documented fields) →
    Fields.ListsSteps fields

/-- What a node is taken for stands where it may, unless the node calls itself a step. -/
theorem infer_orderly (hl : l.orderly = true) {node allowed key map}
    (hallowed : ∀ t ∈ allowed, t.orderly role = true)
    (hclass : ∀ c, explicitType node key map = some c → c.isName "WorkflowStep" = false) :
    Gives (fun m => m.TypedIn fun t => t.orderly role = true) (infer l node allowed key map) := by
  refine fun m hm => (infer_gives_of_class l node allowed key map hallowed ?_ m hm).typedIn
  intro name styled t _ hname hget
  refine CwlType.orderly_of_plain (l.orderly_of_get? hl hget ?_) role
  rintro rfl
  have hstep := hclass _ hname
  simp [Node.isName] at hstep

end CwlService
