import CwlService.Proofs.Node.Sameness

/-! # Tables

A table has values under keys. What is set under a key that is there takes the place of what was
there, and the key stays as it was written first; under any other key it comes last. So a table
has every key once, in the order in which they were first used, with the value that was set last. -/
namespace CwlService

open List

namespace Node

/-- Names of which no two are the same. -/
def Distinct (names : List Node) : Prop := names.Pairwise fun a b => a.same b = false

theorem Distinct.concat {names} (h : Distinct names) {name}
    (hnone : ∀ a ∈ names, a.same name = false) : Distinct (names ++ [name]) := by
  refine pairwise_append.mpr ⟨h, pairwise_singleton _ _, fun a ha b hb => ?_⟩
  rw [mem_singleton.mp hb]
  exact hnone a ha

end Node

namespace Table

open Node (Distinct)

variable {α : Type} {t : List (Node × α)} {k : Node} {v : α}

def get? (t : List (Node × α)) (k : Node) : Option α := (t.find? fun e => e.1.same k).map (·.2)

def set (t : List (Node × α)) (k : Node) (v : α) : List (Node × α) :=
  if t.any fun e => e.1.same k then t.map fun e => if e.1.same k then (e.1, v) else e else t ++ [(k, v)]

/-- Sets several values, one after the other. -/
def setAll (t added : List (Node × α)) : List (Node × α) := added.foldl (fun t e => set t e.1 e.2) t

theorem get?_cons (e : Node × α) (t : List (Node × α)) (k : Node) :
    get? (e :: t) k = if e.1.same k then some e.2 else get? t k := by
  rw [get?, find?_cons]
  cases e.1.same k <;> rfl

theorem get?_append (t added : List (Node × α)) (k) : get? (t ++ added) k = (get? t k).or (get? added k) := by
  rw [get?, find?_append, Option.map_or]
  rfl

theorem isSome_get? (t : List (Node × α)) (k) : (get? t k).isSome = t.any fun e => e.1.same k := by
  rw [get?, Option.isSome_map, isSome_find?]

theorem set_of_new (h : (t.any fun e => e.1.same k) = false) : set t k v = t ++ [(k, v)] := by
  rw [set, h]
  rfl

/-- What there is after something with a key took the place of those with the same key, or came last. -/
theorem mem_replaced {β : Type} {es : List β} {key : β → Node} {c : β → β} {new e}
    (h : e ∈ if es.any fun e => (key e).same k then es.map fun e =>
    if (key e).same k then c e else e else es ++ [new]) :
    e ∈ es ∧ (key e).same k = false ∨ e = new ∨ ∃ f ∈ es, (key f).same k = true ∧ e = c f := by
  split at h
  · obtain ⟨f, hf, rfl⟩ := mem_map.mp h
    split
    · rename_i hsame
      exact .inr (.inr ⟨f, hf, hsame, rfl⟩)
    · rename_i hsame
      exact .inl ⟨hf, Bool.eq_false_iff.mpr hsame⟩
  · rename_i hnone
    rcases mem_append.mp h with h | h
    · exact .inl ⟨h, by simpa using any_eq_false.mp (Bool.not_eq_true _ ▸ hnone) e h⟩
    · exact .inr (.inl (mem_singleton.mp h))

theorem get?_set (t : List (Node × α)) (k : Node) (v : α) (k' : Node) :
    get? (set t k v) k' = if k.same k' then some v else get? t k' := by
  cases hany : t.any fun e => e.1.same k with
  | false =>
    rw [set_of_new hany, get?_append, get?_cons]
    split
    · rename_i hk
      have hkeys : (fun e : Node × α => e.1.same k) = fun e => e.1.same k' := by
        funext e
        rw [Node.same_comm, Node.same_congr hk, Node.same_comm]
      rw [hkeys, ← isSome_get?, Option.isSome_eq_false_iff, Option.isNone_iff_eq_none] at hany
      rw [hany]
      rfl
    · exact Option.or_none
  | true =>
    -- a value that is replaced is found where it was, as its key stays
    have hkeys : ((fun e : Node × α => e.1.same k') ∘ fun e : Node × α => if e.1.same k then (e.1, v) else e) =
        fun e => e.1.same k' := by
      funext e
      simp only [Function.comp]
      split <;> rfl
    rw [set, if_pos hany, get?, get?, find?_map, hkeys, Option.map_map]
    cases hfind : t.find? fun e => e.1.same k' with
    | none =>
      obtain ⟨e, he, hsame⟩ := any_eq_true.mp hany
      have hk : ¬k.same k' = true := fun hk => List.find?_eq_none.mp hfind e he (Node.same_trans _ _ _ hsame hk)
      rw [if_neg hk]
      rfl
    | some e =>
      have he : e.1.same k' = true := by simpa using find?_some hfind
      rw [Option.map_some, Function.comp, Node.same_comm k, ← Node.same_congr he, Option.map_some]
      split <;> rfl

theorem keys_set (t k) (v : α) :
    (set t k v).map (·.1) = if t.any fun e => e.1.same k then t.map (·.1) else t.map (·.1) ++ [k] := by
  unfold set
  split
  · rw [map_map]
    refine map_congr_left fun e _ => ?_
    simp only [Function.comp]
    split <;> rfl
  · exact map_append

theorem distinct_set (h : Distinct (t.map (·.1))) (k v) : Distinct ((set t k v).map (·.1)) := by
  rw [keys_set]
  split
  · exact h
  · rename_i hnone
    refine h.concat (forall_mem_map.mpr fun e he => ?_)
    simpa using any_eq_false.mp (Bool.not_eq_true _ ▸ hnone) e he

/-- Something that has keys and values, and more besides, is set like a table. -/
theorem map_set {β : Type} {es : List β} {key : β → Node} {value : β → α} {c : β → β} {new : β}
    (hkey : ∀ e, key (c e) = key e) (hvalue : ∀ e, value (c e) = v) (hnew : (key new, value new) = (k, v)) :
    (if es.any fun e => (key e).same k then es.map fun e => if (key e).same k then c e else e
      else es ++ [new]).map (fun e => (key e, value e)) = set (es.map fun e => (key e, value e)) k v := by
  unfold set
  rw [any_map]
  change _ = if (es.any fun e => (key e).same k) = true then _ else _
  split
  · rw [map_map, map_map]
    refine map_congr_left fun e _ => ?_
    simp only [Function.comp]
    split
    · rw [hkey, hvalue]
    · rfl
  · rw [map_append, map_singleton, hnew]

/-! ## Several values -/

theorem get?_setAll (k : Node) : ∀ added t : List (Node × α),
    get? (setAll t added) k = (get? added.reverse k).or (get? t k)
  | [], _ => rfl
  | e :: rest, t => by
    rw [setAll, foldl_cons, ← setAll, get?_setAll k rest, get?_set, reverse_cons, get?_append,
      get?_cons, Option.or_assoc]
    split <;> rfl

theorem distinct_setAll : ∀ added {t : List (Node × α)}, Distinct (t.map (·.1)) →
    Distinct ((setAll t added).map (·.1))
  | [], _, h => h
  | e :: rest, _, h => distinct_setAll rest (distinct_set h e.1 e.2)

theorem setAll_of_distinct : ∀ added t : List (Node × α), Distinct ((t ++ added).map (·.1)) →
    setAll t added = t ++ added
  | [], t, _ => (append_nil t).symm
  | e :: rest, t, h => by
    have hnone : (t.any fun f => f.1.same e.1) = false := by
      rw [map_append] at h
      refine any_eq_false.mpr fun f hf => ?_
      simp [(pairwise_append.mp h).2.2 f.1 (mem_map_of_mem hf) e.1 (by simp)]
    rw [← singleton_append, ← append_assoc] at h ⊢
    exact (congrArg (fun t => setAll t rest) (set_of_new hnone)).trans (setAll_of_distinct rest _ h)

end Table

namespace Node

theorem any_same_put (es : Entries) (key value k : Node) :
    ((Entries.put es key value).any fun e => e.1.same k) = true ↔
      (es.any fun e => e.1.same k) = true ∨ key.same k = true := by
  have hany : ∀ es : Entries, (es.any fun e => e.1.same k) = (Table.get? (es.map fun e => (e.1, e.2.2)) k).isSome := by
    intro es
    rw [Table.isSome_get?, any_map]
    rfl
  have hset : (Entries.put es key value).map (fun e => (e.1, e.2.2)) = _ :=
    Table.map_set (c := fun e => (e.1, e.2.1, value)) (fun _ => rfl) (fun _ => rfl) rfl
  rw [hany, hany, hset, Table.get?_set]
  split <;> simp [*]

theorem hasField_put (es k value t) :
    Entries.hasField (Entries.put es k value) t = true ↔ es.hasField t = true ∨ k.isName t = true := by
  simpa [Entries.hasField] using any_same_put es k value (.str t)

end Node
end CwlService
