import CwlService.Proofs.Node.Reordered
import CwlService.Proofs.Node.Told

/-! # Sets of names and the keys of listings

A set has a key if one of its members is the same, so what is in a set does not depend on
which of several keys that are the same it was made from. A listing has the same keys
whether or not their spans are asked for. -/
namespace CwlService

open List

namespace NameSet

theorem contains_iff {s : NameSet} {k} : s.contains k = true ↔ ∃ m ∈ s.members, m.same k = true := by
  simp [contains]

theorem contains_insert (s : NameSet) (n k : Node) :
    (s.insert n).contains k = true ↔ s.contains k = true ∨ n.same k = true := by
  unfold insert
  split
  · rename_i hn
    refine ⟨.inl, ?_⟩
    rintro (hk | hk)
    · exact hk
    · obtain ⟨m, hm, hmn⟩ := contains_iff.mp hn
      exact contains_iff.mpr ⟨m, hm, Node.same_trans m n k hmn hk⟩
  · simp only [contains, any_append, any_cons, Bool.or_eq_true]
    have hsplit : s.members.any (fun m => m.same k) =
        ((s.members.takeWhile fun m => precedes m n).any (fun m => m.same k) ||
          (s.members.dropWhile fun m => precedes m n).any fun m => m.same k) := by
      rw [← any_append, takeWhile_append_dropWhile]
    rw [hsplit, Bool.or_eq_true]
    grind

theorem contains_foldl_insert (ns : List Node) (s : NameSet) (k : Node) :
    (ns.foldl insert s).contains k = true ↔ s.contains k = true ∨ ∃ n ∈ ns, n.same k = true := by
  induction ns generalizing s with
  | nil => simp
  | cons n ns ih =>
    rw [foldl_cons, ih, contains_insert]
    grind

theorem contains_ofList (ns : List Node) (k : Node) :
    (ofList ns).contains k = true ↔ ∃ n ∈ ns, n.same k = true := by
  rw [ofList, contains_foldl_insert]
  simp [contains, empty]

theorem contains_erase (s : NameSet) (n k : Node) :
    (s.erase n).contains k = true ↔ s.contains k = true ∧ k.same n = false := by
  simp only [contains_iff, erase, mem_filter, Bool.not_eq_true']
  constructor
  · rintro ⟨m, ⟨hm, hmn⟩, hmk⟩
    refine ⟨⟨m, hm, hmk⟩, Bool.eq_false_iff.mpr fun hkn => ?_⟩
    rw [Node.same_trans m k n hmk hkn] at hmn
    cases hmn
  · rintro ⟨⟨m, hm, hmk⟩, hkn⟩
    refine ⟨m, ⟨hm, Bool.eq_false_iff.mpr fun hmn => ?_⟩, hmk⟩
    rw [Node.same_trans k m n (Node.same_symm m k hmk) hmn] at hkn
    cases hkn

end NameSet

namespace Listing

variable {e f : ListingEntry} {es : List ListingEntry} {keyField n : Node} {l : Listing}

theorem mem_insert (h : f ∈ insert es e) : f ∈ es ∨ f = e := by
  unfold insert at h
  split at h
  · exact .inl h
  · rcases mem_append.mp h with h | h
    · exact .inl ((takeWhile_sublist _).subset h)
    · rcases mem_cons.mp h with h | h
      · exact .inr h
      · exact .inl ((dropWhile_sublist _).subset h)

theorem mem_sorted (h : e ∈ sorted es) : e ∈ es := by
  have hfold : ∀ (es acc : List ListingEntry), e ∈ es.foldl insert acc → e ∈ acc ∨ e ∈ es := by
    intro es
    induction es with
    | nil => intro acc h; exact .inl h
    | cons f es ih =>
      intro acc h
      rcases ih _ h with h | h
      · rcases mem_insert h with h | rfl
        · exact .inl h
        · exact .inr (by simp)
      · exact .inr (mem_cons_of_mem _ h)
  rcases hfold es [] h with h | h
  · cases h
  · exact h

theorem forall₂_span {α β : Type} {R : α → β → Prop} {p : α → Bool} {q : β → Bool} {xs ys}
    (hpq : ∀ a b, R a b → p a = q b) (h : Forall₂ R xs ys) :
    Forall₂ R (xs.takeWhile p) (ys.takeWhile q) ∧ Forall₂ R (xs.dropWhile p) (ys.dropWhile q) := by
  induction h with
  | nil => exact ⟨.nil, .nil⟩
  | @cons a b xs ys hab hrest ih =>
    rw [takeWhile_cons, takeWhile_cons, dropWhile_cons, dropWhile_cons, hpq a b hab]
    split
    · exact ⟨.cons hab ih.1, ih.2⟩
    · exact ⟨.nil, .cons hab hrest⟩

section

variable {R : ListingEntry → ListingEntry → Prop} (hkey : ∀ {e e'}, R e e' → e.key = e'.key)
  {es es' : List ListingEntry}

include hkey

theorem any_of_forall₂ (h : Forall₂ R es es') (p : Node → Bool) :
    (es.any fun e => p e.key) = es'.any fun e => p e.key := by
  have hkeys : ∀ fs : List ListingEntry, (fs.any fun f => p f.key) = (fs.map (·.key)).any p :=
    fun fs => by rw [any_map]; rfl
  rw [hkeys es, hkeys es', Node.map_eq_of_forall₂ h fun _ _ => hkey]

theorem insert_forall₂ {e'} (h : Forall₂ R es es') (he : R e e') :
    Forall₂ R (insert es e) (insert es' e') := by
  obtain ⟨hbefore, hafter⟩ := forall₂_span (p := fun f => NameSet.precedes f.key e.key)
    (q := fun f => NameSet.precedes f.key e'.key) (fun f f' hf => by rw [hkey hf, hkey he]) h
  have hany : (es.any fun f => f.key.same e.key) = es'.any fun f => f.key.same e'.key := by
    rw [any_of_forall₂ hkey h fun k => k.same e.key, hkey he]
  unfold insert
  rw [hany]
  split
  · exact h
  · exact rel_append hbefore (.cons he hafter)

theorem sorted_forall₂ (h : Forall₂ R es es') : Forall₂ R (sorted es) (sorted es') := by
  have hinsert : ∀ {acc acc' : List ListingEntry}, Forall₂ R acc acc' →
      Forall₂ R (es.foldl insert acc) (es'.foldl insert acc') := by
    induction h with
    | nil => exact id
    | cons he _ ih => exact fun hacc => ih (insert_forall₂ hkey hacc he)
  exact hinsert .nil

end

end Listing
end CwlService
