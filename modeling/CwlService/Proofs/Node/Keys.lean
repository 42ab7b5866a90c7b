import CwlService.Node.Basic

/-! # Texts as keys

A key is the same as a text exactly if it is that text, however it is written. So what
stands under a name can be found without comparing other keys. -/
namespace CwlService.Node

variable (es : Entries) (name : String) (styled : Bool)

@[simp] theorem same_text (m : Node) (n styled) : m.same (.text n styled) = m.isName n := by
  cases m <;> simp [same, isName, number?]

theorem isName_iff {m : Node} {n} : m.isName n = true ↔ ∃ styled, m = .text n styled := by
  cases m <;> simp [isName]

/-- Whether a node is a text as it stands in a schema. -/
def isStr (n : Node) (s : String) : Bool :=
  match n with
  | .text t styled => t == s && !styled
  | _ => false

theorem isStr_iff {n : Node} {s} : n.isStr s = true ↔ n = .str s := by
  cases n <;> simp [isStr, str]

theorem str_mem_of_any {ns : List Node} {s} (h : (ns.any fun n => n.isStr s) = true) : .str s ∈ ns := by
  obtain ⟨n, hn, hs⟩ := List.any_eq_true.mp h
  exact isStr_iff.mp hs ▸ hn

theorem isText_iff {n : Node} : n.isText = true ↔ ∃ s styled, n = .text s styled := by
  cases n <;> simp [isText]

theorem mem_text? {m : Node} {n} : n ∈ m.text?.toList ↔ m.isName n = true := by
  cases m <;> simp [text?, isName]
  exact eq_comm

theorem same_of_isName {a b : Node} {n} (ha : a.isName n = true) : a.same b = b.isName n := by
  obtain ⟨styled, rfl⟩ := isName_iff.mp ha
  cases b with
  | text s _ =>
    rw [same_text, isName, isName, Bool.eq_iff_iff, beq_iff_eq, beq_iff_eq]
    exact eq_comm
  | _ => simp [same, isName, number?]

theorem under?_text : Entries.under? es (.text name styled) = List.find? (fun e => e.1.isName name) es := by
  simp only [Entries.under?, same_text]

theorem value?_text : es.value? (.text name styled) = es.field? name := by
  rw [Entries.value?, under?_text, Entries.field?]

theorem isSome_value?_text : (es.value? (.text name styled)).isSome = es.hasField name := by
  rw [value?_text, Entries.field?, Option.isSome_map, List.isSome_find?, Entries.hasField]

/-- A map that is written at the beginning of a text. -/
def placedMap (entries : List (String × Node)) : Node :=
  .map .placed (entries.map fun e => (.text e.1 false, some (⟨0, 0⟩, ⟨0, 0⟩), e.2))

/-- A list that is written at the beginning of a text. -/
def placedList (items : List Node) : Node :=
  .seq .placed (items.map fun n => (some ⟨0, 0⟩, n))

end CwlService.Node
