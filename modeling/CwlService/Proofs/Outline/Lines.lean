import CwlService.Document.Basic
import CwlService.Proofs.Outcome
import Mathlib.Data.List.Chain

/-! # Lines of an outline

The lines of a process are dealt out to its entries, and the lines of its steps to the steps. Each
symbol starts in the line of its entry and ends in the line before the next. The last entry has no
next: it ends two lines above the number of line breaks, and the last step ends in the line above
the one where the entry that holds the steps ends. Either may so end before it starts. -/
namespace CwlService.Outline

open List

/-- Spans that start in given lines, each of which ends in the line before the next. The last ends
in the line before a given one, and none ends before it starts exactly if all these lines increase. -/
structure Tiles (starts : List Int) (next : Int) (spans : List Span) : Prop where
  begins : spans.map (·.start.line) = starts
  follow : spans.IsChain fun a b => a.stop.line + 1 = b.start.line
  ends : ∀ s ∈ spans.getLast?, s.stop.line + 1 = next
  ordered : (∀ s ∈ spans, s.start.line ≤ s.stop.line) ↔ (starts ++ [next]).IsChain (· < ·)

variable {starts : List Int} {found : List (Node × Int)}

theorem withSpans_tiles (starts next) : Tiles starts next (withSpans starts next) := by
  induction starts with
  | nil => exact ⟨rfl, .nil, by simp [withSpans], by simp [withSpans]⟩
  | cons a rest ih =>
    cases rest with
    | nil =>
      exact ⟨rfl, .singleton _, by simp [withSpans, lines],
        forall_mem_singleton.trans (Int.le_sub_one_iff.trans isChain_pair.symm)⟩
    | cons b rest =>
      have hcons : withSpans (a :: b :: rest) next = lines a b :: withSpans (b :: rest) next := rfl
      rw [hcons]
      generalize withSpans (b :: rest) next = spans at ih ⊢
      obtain ⟨s, spans, rfl, hs, -⟩ := map_eq_cons_iff.mp ih.begins
      refine ⟨?_, ?_, ?_, ?_⟩
      · rw [map_cons, ih.begins]
        rfl
      · refine isChain_cons_cons.mpr ⟨?_, ih.follow⟩
        rw [hs]
        exact Int.sub_add_cancel b 1
      · rw [getLast?_cons_cons]
        exact ih.ends
      · rw [forall_mem_cons, ih.ordered]
        exact (and_congr_left' Int.le_sub_one_iff).trans isChain_cons_cons.symm

theorem length_withSpans (starts next) : (withSpans starts next).length = starts.length := by
  cases starts <;> simp [withSpans]

/-- Whatever is dealt the lines keeps its order. -/
theorem zip_withSpans {α : Type} (xs : List α) (hlength : starts.length = xs.length) (next : Int) :
    (xs.zip (withSpans starts next)).map (·.1) = xs ∧
      Tiles starts next ((xs.zip (withSpans starts next)).map (·.2)) := by
  have heq := (length_withSpans starts next).trans hlength
  refine ⟨map_fst_zip (Nat.le_of_eq heq.symm), ?_⟩
  rw [map_snd_zip (Nat.le_of_eq heq)]
  exact withSpans_tiles starts next

theorem length_of_mapM {α β : Type} {f : α → Except Fault β} : ∀ {xs : List α} {ys},
    xs.mapM f = .ok ys → ys.length = xs.length
  | [], _, h => by
    cases h
    rfl
  | x :: xs, _, h => by
    rw [mapM_cons] at h
    obtain ⟨y, _, h⟩ := bind_eq_ok h
    obtain ⟨ys, hys, h⟩ := bind_eq_ok h
    cases h
    rw [length_cons, length_cons, length_of_mapM hys]

theorem symbols_tile {form} {es : Node.Entries} (hkeys : keyLines (.map form es) = .ok starts)
    (count : Int) :
    ∃ syms, symbols (.map form es) count = .ok syms ∧ syms.map (·.1) = es.map (·.1) ∧
      Tiles starts (count - 1) (syms.map (·.2.span)) := by
  obtain ⟨hentries, htiles⟩ := zip_withSpans es (length_of_mapM hkeys) (count - 1)
  refine ⟨_, by unfold symbols; rw [hkeys]; rfl, ?_, ?_⟩
  · conv_rhs => rw [← hentries]
    rw [map_map, map_map]
    rfl
  · rw [map_map]
    exact htiles

/-- A symbol has the steps below it, one for each, and they share its lines. -/
def HasBelow (found : List (Node × Int)) (s : Symbol) : Prop :=
  ∃ children ∈ s.children, children.map (·.name) = found.map (·.1) ∧
    Tiles (found.map (·.2)) s.span.stop.line (children.map (·.span))

theorem putBelow_keeps (children : List Leaf) (s : Node × Symbol) :
    (putBelow children s).1 = s.1 ∧ (putBelow children s).2.span = s.2.span := by
  unfold putBelow
  split <;> exact ⟨rfl, rfl⟩

theorem putBelow_hasBelow (found : List (Node × Int)) {s} (hs : s.1.isName "steps" = true) :
    HasBelow found (putBelow (leaves found s.2.span.stop.line) s).2 := by
  obtain ⟨hsteps, htiles⟩ := zip_withSpans found (length_map (·.2)) s.2.span.stop.line
  refine ⟨leaves found s.2.span.stop.line, ?_, ?_, ?_⟩
  · rw [putBelow, if_pos hs]
    rfl
  · conv_rhs => rw [← hsteps, map_map]
    rw [leaves, map_map]
    rfl
  · rw [(putBelow_keeps _ s).2, leaves, map_map]
    exact htiles

/-- The symbols of a process keep their lines when the steps are put below the one that holds them. -/
theorem withSteps_below {process syms}
    (h : holdsSteps process = true → steps (held process) = .ok found ∧
      (syms.map (·.1)).any (·.isName "steps") = true) :
    ∃ syms', withSteps process syms = .ok syms' ∧ syms'.map (·.1) = syms.map (·.1) ∧
      syms'.map (·.2.span) = syms.map (·.2.span) ∧
      (holdsSteps process = true → ∃ s ∈ syms'.find? (·.1.isName "steps"), HasBelow found s.2) := by
  unfold withSteps
  cases hholds : holdsSteps process with
  | false => exact ⟨syms, rfl, rfl, rfl, by simp⟩
  | true =>
    obtain ⟨hfound, hany⟩ := h hholds
    rw [any_map, any_eq_true, ← find?_isSome] at hany
    obtain ⟨s, hs : syms.find? (·.1.isName "steps") = some s⟩ := Option.isSome_iff_exists.mp hany
    have hholder := find?_some hs
    refine ⟨syms.map (putBelow (leaves found s.2.span.stop.line)), ?_, ?_, ?_, fun _ =>
      ⟨_, ?_, putBelow_hasBelow found hholder⟩⟩
    · rw [if_pos rfl, hs, hfound]
      rfl
    · simp [Function.comp_def, putBelow_keeps]
    · simp [Function.comp_def, putBelow_keeps]
    · simp only [find?_map, Function.comp_def, putBelow_keeps, Option.mem_def]
      exact congrArg (Option.map _) hs

def isFlow (process : Node) : Bool := ((process.field? "class").getD .null).isName "Workflow"

/-- A process whose entries start in these lines. If it is a workflow with steps, they start in
those, below an entry that is listed. -/
structure Laid (p : Yaml.Reader.Loaded) (es : Node.Entries) (starts : List Int)
    (found : List (Node × Int)) : Prop where
  node : ∃ form, p.node = .map form es
  isProcess : Language.processTypes.any ((p.full.field? "class").getD .null).isName = true
  keys : keyLines p.node = .ok starts
  steps : isFlow p.full = true → holdsSteps p.full = true →
    steps (held p.full) = .ok found ∧ es.hasField "steps" = true

/-- The symbols of a process are one for each entry and share its lines, and so do the steps of a
workflow below the entry that holds them. -/
theorem symbolsOf_tile {p : Yaml.Reader.Loaded} {es : Node.Entries} (h : Laid p es starts found) (text : String) :
    ∃ syms : List (Node × Symbol), Document.symbolsOf p text = .ok (syms.map (·.2)) ∧
      syms.map (·.1) = es.map (·.1) ∧ Tiles starts (Document.breaks text - 1) (syms.map (·.2.span)) ∧
      (isFlow p.full = true → holdsSteps p.full = true →
        ∃ s ∈ syms.find? (·.1.isName "steps"), HasBelow found s.2) := by
  obtain ⟨form, hnode⟩ := h.node
  have hkeys := h.keys
  rw [hnode] at hkeys
  obtain ⟨syms, hsyms, hnames, htiles⟩ := symbols_tile hkeys (Document.breaks text)
  unfold Document.symbolsOf
  simp only [h.isProcess, if_true, hnode, hsyms]
  rw [← isFlow]
  cases hflow : isFlow p.full with
  | false => exact ⟨syms, rfl, hnames, htiles, by simp⟩
  | true =>
    have hlisted : es.hasField "steps" = (syms.map (·.1)).any (·.isName "steps") := by
      rw [hnames, any_map]
      rfl
    obtain ⟨syms', hsteps, hsame, hspans, hbelow⟩ := withSteps_below (hlisted ▸ h.steps hflow)
    refine ⟨syms', ?_, hsame.trans hnames, hspans ▸ htiles, fun _ => hbelow⟩
    change (withSteps p.full syms >>= _) = _
    rw [hsteps]
    rfl

/-- A workflow of four lines, each with a line break at its end; the last holds its last step. -/
def twoSteps : Node.Entries := [
  (.str "class", some (⟨0, 0⟩, ⟨0, 7⟩), .str "Workflow"),
  (.str "steps", some (⟨1, 0⟩, ⟨2, 2⟩), .map .placed [
    (.str "a", some (⟨2, 2⟩, ⟨2, 5⟩), .null), (.str "b", some (⟨3, 2⟩, ⟨3, 5⟩), .null)])]

theorem twoSteps_laid : Laid ⟨.map .placed twoSteps, []⟩ twoSteps [0, 1] [(.str "a", 2), (.str "b", 3)] where
  node := ⟨_, rfl⟩
  isProcess := by decide +kernel
  keys := by with_unfolding_all rfl
  steps _ _ := ⟨by with_unfolding_all rfl, by decide +kernel⟩

theorem symbolsOf_tile_twoSteps : ∃ syms : List (Node × Symbol),
    Document.symbolsOf ⟨.map .placed twoSteps, []⟩ "class: Workflow\nsteps:\n  a:\n  b:\n" =
        .ok (syms.map (·.2)) ∧ syms.map (·.1) = [.str "class", .str "steps"] ∧
      Tiles [0, 1] 3 (syms.map (·.2.span)) ∧
      ∃ s ∈ syms.find? (·.1.isName "steps"), HasBelow [(.str "a", 2), (.str "b", 3)] s.2 := by
  obtain ⟨syms, hsyms, hnames, htiles, hbelow⟩ :=
    symbolsOf_tile twoSteps_laid "class: Workflow\nsteps:\n  a:\n  b:\n"
  exact ⟨syms, hsyms, hnames, htiles, hbelow (by decide +kernel) (by decide +kernel)⟩

end CwlService.Outline
