import CwlService.Proofs.Node.NameSet

/-! # Problems that have a place

A key, a value or an item ends where it starts or behind that. So the problems of a listing are
found at spans that are in order, and so are the keys and values that it lists. -/
namespace CwlService

open List

/-! ## The order of places -/

/-- A span that ends where it starts or behind that. -/
def Span.Ordered (s : Span) : Prop := s.start.le s.stop = true

namespace Place

theorem le_refl (p : Place) : p.le p = true := by simp [le]

theorem le_further (p : Place) (n : Nat) : p.le ⟨p.line, p.column + n⟩ = true := by
  have h : p.column ≤ p.column + n := by omega
  simp [le, h]

theorem le_below (p : Place) {n : Nat} (h : 0 < n) (column) : p.le ⟨p.line + n, column⟩ = true := by
  have h : p.line < p.line + n := by omega
  simp [le, h]

end Place

theorem Span.ordered_at (p : Place) : (Span.at_ p).Ordered := p.le_refl

/-- A span that is known and in order. -/
def Span.Known (span? : Option Span) : Prop := ∃ span, span? = some span ∧ span.Ordered

theorem Span.Ordered.known {span : Span} (h : span.Ordered) : Span.Known (some span) := ⟨span, rfl, h⟩

namespace Node

theorem le_endPlace (start : Place) (value : Node) : start.le (endPlace start value) = true := by
  unfold endPlace
  split
  · exact start.le_refl
  · split
    · exact start.le_refl
    · exact start.le_further _
    · rename_i hlines _
      exact start.le_below (length_pos_iff.mpr hlines) _

theorem keySpan_ordered (parent key : Node) : Gives Span.Ordered (parent.keySpan key) := by
  refine .bind (.any _) fun (start, _) _ => ?_
  dsimp only
  split
  · exact .pure (start.le_further _)
  · exact .throw _

theorem valueSpan_ordered (parent key : Node) : Gives Span.Ordered (parent.valueSpan key) := by
  refine .bind (.any _) fun (_, start) _ => ?_
  dsimp only
  split
  · exact .pure (le_endPlace start _)
  · exact .throw _

theorem itemSpan_ordered (parent : Node) (index) : Gives Span.Ordered (parent.itemSpan index) := by
  refine .bind (.any _) fun start _ => ?_
  split
  · exact .pure (le_endPlace start _)
  · exact .throw _

end Node

/-! ## Problems with a place -/

namespace Diagnostic

/-- A problem at a span that is known and in order. -/
def Placed (d : Diagnostic) : Prop := Span.Known d.span

/-- Problems that all have a place. -/
def AllPlaced (ds : List Diagnostic) : Prop := ∀ d ∈ ds, d.Placed

theorem AllPlaced.nil : AllPlaced [] := fun _ h => nomatch h

theorem AllPlaced.append {ds ds'} (h : AllPlaced ds) (h' : AllPlaced ds') :
    AllPlaced (ds ++ ds') := forall_mem_append.mpr ⟨h, h'⟩

theorem AllPlaced.concat {ds d} (h : AllPlaced ds) (hd : d.Placed) :
    AllPlaced (ds ++ [d]) := h.append (forall_mem_singleton.mpr hd)

end Diagnostic

/-! ## Listings -/

namespace Listing

open Diagnostic (AllPlaced)

/-- Entries whose keys have spans in order, as far as they have one of their own. -/
def KeysOrdered (es : List ListingEntry) : Prop := ∀ e ∈ es, ∀ span, e.keySpan = some span → span.Ordered

theorem keysOrdered_put {es e} (h : KeysOrdered es)
    (he : ∀ span, e.keySpan = some span → span.Ordered) : KeysOrdered (put es e) := by
  intro f hf
  rcases Table.mem_replaced hf with ⟨hf, -⟩ | rfl | ⟨g, -, -, rfl⟩
  · exact h f hf
  · exact he
  · exact he

theorem tell_placed {source keyField item withSpans index told}
    (h : tell source keyField withSpans index item = .ok told) :
    AllPlaced told.1 ∧ KeysOrdered told.2 := by
  rw [tell_eq h none]
  refine ⟨fun d hd => ?_, fun e he span hspan => ?_⟩
  · unfold itemProblems at hd
    split at hd
    · obtain ⟨span, hspan, rfl⟩ := mem_map.mp hd
      exact (Node.itemSpan_ordered source index span (eq_ok_of_toOption (Option.mem_toList.mp hspan))).known
    · cases hd
  · obtain ⟨key, -, rfl⟩ := mem_map.mp he
    dsimp only at hspan
    split at hspan
    · exact Node.valueSpan_ordered _ _ span (eq_ok_of_toOption hspan)
    · cases hspan

/-- Going through items reports problems that have a place, and keeps the spans of keys in order. -/
theorem ofItems_placed (source keyField withSpans) :
    ∀ items index {acc ds},
      KeysOrdered acc → AllPlaced ds → AllPlaced (ofItems source keyField withSpans index items acc ds).1 ∧
        Gives KeysOrdered (ofItems source keyField withSpans index items acc ds).2
  | [], _, _, _, hacc, hds => ⟨hds, .pure hacc⟩
  | (place, item) :: rest, index, acc, ds, hacc, hds => by
    rw [ofItems_cons]
    cases htell : tell source keyField withSpans index item with
    | error f => exact ⟨hds, .throw f⟩
    | ok told =>
      obtain ⟨hfound, hadded⟩ := tell_placed htell
      refine ofItems_placed source keyField withSpans rest (index + 1) ?_ (hds.append hfound)
      exact foldlRecOn told.2 put hacc fun es hes e he => keysOrdered_put hes (hadded e he)

theorem keysOrdered_nil : KeysOrdered [] := fun _ h => nomatch h

theorem of_placed (n keyField : Node) :
    AllPlaced (of n keyField).1 ∧ Gives (fun l => KeysOrdered l.entries) (of n keyField).2 := by
  cases n with
  | map form es =>
    refine ⟨.nil, .pure ?_⟩
    intro e he span hspan
    obtain ⟨f, _, rfl⟩ := mem_map.mp he
    cases hspan
  | seq form items =>
    obtain ⟨hds, hes⟩ := ofItems_placed (.seq form items) keyField true items 0 keysOrdered_nil .nil
    exact ⟨hds, hes.map fun _ hes => hes⟩
  | _ => exact ⟨.nil, .pure keysOrdered_nil⟩

theorem asMap_placed (n keyField : Node) : AllPlaced (asMap n keyField).1 := by
  cases n with
  | seq form items => exact (ofItems_placed (.seq form items) keyField false items 0 keysOrdered_nil .nil).1
  | _ => exact .nil

theorem idSpan_ordered {l : Listing} {e} (h : ∀ span, e.keySpan = some span → span.Ordered) :
    Gives Span.Ordered (l.idSpan e) := by
  unfold idSpan
  split
  · exact Node.keySpan_ordered _ _
  · rename_i span hspan _
    exact .pure (h span hspan)
  · exact .throw _

theorem valueSpan_ordered (l : Listing) (e) : Gives Span.Ordered (l.valueSpan e) := by
  unfold valueSpan
  split
  · exact Node.valueSpan_ordered _ _
  · exact Node.itemSpan_ordered _ _

end Listing
end CwlService
