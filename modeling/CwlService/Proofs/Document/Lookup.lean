import CwlService.Document.Answer

/-! # Which hint answers

The hint that answers for a place is the first one given whose span holds it. The span of a text is told by the
lines of its value, so it reaches to the last line of a block of text, unless the block has one line only and is
taken for a text beside its key. -/
namespace CwlService

open List

theorem Place.le_iff {p q : Place} : p.le q = true ↔ p.line < q.line ∨ p.line = q.line ∧ p.column ≤ q.column := by
  simp [Place.le]

namespace Document

variable (p : Place) (given : List (Span × Option Hint))

/-- The tests on lines and characters come to the order of places. -/
theorem Caret.isIn_ofPlace (s : Span) : (Caret.ofPlace p).isIn s = .ok (s.contains p) := by
  have hagainst : ∀ bound n, against bound (.num n) = .ok (some (compare n bound)) := fun _ _ => rfl
  unfold Caret.isIn Caret.ofPlace Span.contains Place.le
  simp only [hagainst, bind, Except.bind, pure, Except.pure, Except.map]
  rcases Int.lt_trichotomy p.line s.start.line with hstart | hstart | hstart <;>
    grind [Int.compare_eq_lt, Int.compare_eq_gt]

/-! ## The table of hints -/

/-- Hints that are given one after the other, each for a span. -/
def hinting : Walk Unit := given.forM fun g => Walk.hint (some g.1) g.2

theorem hinting_run (a : Analysis) (links : Yaml.Reader) : ((hinting given).run.run a).run links =
      ((.ok (), { a with hints := a.hints ++ given.map fun g => (some g.1, g.2) }), links) := by
  induction given generalizing a with
  | nil => simp [hinting]; rfl
  | cons g rest ih =>
    change ((hinting rest).run.run { a with hints := a.hints ++ [(some g.1, g.2)] }).run links = _
    rw [ih, map_cons, append_assoc]
    rfl

theorem hintAt_given : hintAt (.ofPlace p) (given.map fun g => (some g.1, g.2)) =
      .ok ((given.find? (·.1.contains p)).bind (·.2)) := by
  induction given with
  | nil => rfl
  | cons g rest ih =>
    rw [map_cons, hintAt, Caret.isIn_ofPlace, find?_cons]
    cases g.1.contains p with
    | true => rfl
    | false => exact ih

/-- The first span that holds a place was given with `h`. -/
def FirstAt (h : Option Hint) : Prop := ∃ before span after,
  given = before ++ (span, h) :: after ∧ span.contains p ∧ ∀ g ∈ before, ¬ g.1.contains p

theorem firstAt_iff {h} :
    FirstAt p given h ↔ ∃ span, given.find? (·.1.contains p) = some (span, h) := by
  simp only [FirstAt, find?_eq_some_iff_append]
  constructor
  · rintro ⟨before, span, after, hgiven, hspan, hbefore⟩
    exact ⟨span, hspan, before, after, hgiven, by simpa using hbefore⟩
  · rintro ⟨span, hspan, before, after, hgiven, hbefore⟩
    exact ⟨before, span, after, hgiven, hspan, by simpa using hbefore⟩

/-- Whatever hints are given, for whatever spans and in whatever order, the one that answers for a place is that of
the first span that holds it. There is none exactly if no span does, or if the first one was given with none. -/
theorem hint?_first (d : Document) (given : List (Span × Option Hint)) (links : Yaml.Reader) (p : Place) :
    let known := { d with analysis := (((hinting given).run.run {}).run links).1.2 }
    (∀ h, known.hint? (.ofPlace p) = .ok (some h) ↔ FirstAt p given (some h)) ∧
    (known.hint? (.ofPlace p) = .ok none ↔ (∀ g ∈ given, ¬ g.1.contains p) ∨ FirstAt p given none) := by
  dsimp only [hint?]
  rw [hinting_run]
  dsimp only
  rw [nil_append, hintAt_given, firstAt_iff]
  simp only [firstAt_iff, Except.ok.injEq, Option.bind_eq_some_iff, ← find?_eq_none]
  cases given.find? (·.1.contains p) with
  | none => simp
  | some g =>
    obtain ⟨span, h⟩ := g
    simp [eq_comm]

end Document

/-! ## Blocks of text -/

namespace Node

/-- What a collection holds under a key or at an index, and where it begins. -/
inductive HoldsAt : Node → Node ⊕ Nat → Place → Node → Prop where
  | entry (hplaces : (Node.map form es).entryPlaces key = .ok (place, start))
      (hvalue : Entries.value? es key = some v) : HoldsAt (.map form es) (.inl key) start v
  | item (hmarked : form.marked = true) (hitem : items[i]? = some (some start, v)) :
      HoldsAt (.seq form items) (.inr i) start v

/-- The span of what a collection holds. -/
def partSpan (parent : Node) : Node ⊕ Nat → Except Fault Span
  | .inl key => parent.valueSpan key
  | .inr index => parent.itemSpan index

theorem HoldsAt.partSpan {parent v} (h : HoldsAt parent slot start v) :
    parent.partSpan slot = .ok ⟨start, endPlace start v⟩ := by
  cases h with
  | entry hplaces hvalue => simp [Node.partSpan, valueSpan, hplaces, hvalue, bind, Except.bind, pure, Except.pure]
  | item hmarked hitem =>
    simp [Node.partSpan, itemSpan, itemPlace, hmarked, hitem, bind, Except.bind, pure, Except.pure]

theorem endPlace_text (start s styled) : endPlace start (.text s styled) =
    match Text.lines s with
    | [] => start
    | [line] => ⟨start.line, start.column + line.length⟩
    | ls => ⟨start.line + ls.length, lineEnd⟩ := rfl

end Node

namespace Document

open Node

/-- The span of a text with `n` lines reaches to the `n`th line below its start, where the last line of a block of
text is, exactly if there is more than one line. Then a hint for it answers from each of these lines, and only
then. -/
theorem found_from_block {parent : Node} {slot : Node ⊕ Nat} {start : Place} {s : String} {styled : Bool}
    (h : HoldsAt parent slot start (.text s styled)) (hs : 1 ≤ (Text.lines s).length) :
    ∃ span, parent.partSpan slot = .ok span ∧ span.start = start ∧
      (span.stop.line = start.line + (Text.lines s).length ↔ 2 ≤ (Text.lines s).length) ∧
      ((∀ p : Place, start.le p → p.line ≤ start.line + (Text.lines s).length → p.column ≤ lineEnd →
        ∀ hint others, hintAt (.ofPlace p) ((some span, some hint) :: others) = .ok (some hint)) ↔
        2 ≤ (Text.lines s).length) := by
  refine ⟨_, h.partSpan, rfl, ?_⟩
  rw [endPlace_text]
  match hlines : Text.lines s, hs with
  | [line], _ =>
    simp only [length_singleton, Nat.not_succ_le_self, iff_false]
    refine ⟨by omega, fun hall => ?_⟩
    -- the line below the start is not reached
    have hnext := hall ⟨start.line + 1, 0⟩ (Place.le_iff.mpr (.inl (Int.lt_succ _))) (Int.le_refl _)
      (Int.natCast_nonneg _) (.fields []) []
    rw [hintAt, Caret.isIn_ofPlace] at hnext
    have hout : Span.contains ⟨start, ⟨start.line, start.column + line.length⟩⟩ ⟨start.line + 1, 0⟩ = false := by
      refine Bool.and_eq_false_imp.mpr fun _ => Bool.eq_false_iff.mpr fun hstop => ?_
      rw [Place.le_iff] at hstop
      dsimp only at hstop
      omega
    rw [hout] at hnext
    cases hnext
  | first :: second :: rest, _ =>
    refine ⟨iff_of_true rfl (by simp), iff_of_true (fun p hp hlast hwide hint others => ?_) (by simp)⟩
    rw [hintAt, Caret.isIn_ofPlace]
    have hin : Span.contains ⟨start, ⟨start.line + (first :: second :: rest).length, lineEnd⟩⟩ p = true := by
      refine Bool.and_eq_true_iff.mpr ⟨hp, Place.le_iff.mpr ?_⟩
      dsimp only
      omega
    rw [hin]
    rfl

/-- A list with an expression in a block of two lines. -/
def blockSample : Node := .seq { marked := true } [(some ⟨0, 2⟩, .str "$(inputs.a)\nb\n")]

theorem found_from_block_sample : ∃ span, blockSample.partSpan (.inr 0) = .ok span ∧ span.stop.line = 2 := by
  have hitem : HoldsAt blockSample (.inr 0) ⟨0, 2⟩ (.str "$(inputs.a)\nb\n") := .item rfl rfl
  obtain ⟨span, hspan, -, hstop, -⟩ := found_from_block hitem (by decide +kernel)
  exact ⟨span, hspan, hstop.mpr (by decide +kernel)⟩

end Document
end CwlService
