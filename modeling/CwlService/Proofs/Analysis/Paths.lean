import CwlService.Proofs.Analysis.Contracts
import CwlService.Proofs.Document.Renewed
import CwlService.Proofs.Language.Collections

/-! # The paths to texts with expressions

Every visit is given a part of the document at the end of a trail, and the keys on the trail as its
path. What it gives to visits below it is one turn further, so a text with expressions is noted with
the keys that lead to it. As trails do not tell how collections are written, its path stays when a
list becomes a map. -/
namespace CwlService

open Node (Leads ThroughKey)
open List

theorem CwlType.Fits.isPlainName_eq {part name documented} {fields : Fields}
    (h : CwlType.Fits part (.record name documented fields)) : name.isPlainName = false := by
  cases h
  assumption

namespace Analysis

/-- A hint for a text with expressions is for the text at the end of a trail: it has the keys on
the trail, and the span that the text has there. -/
def IsExpressionAt (root : Node) (trail : List Turn) (h : Option Span × Option Hint) : Prop :=
  ∃ text styled span, Leads root trail .plain (.text text styled) span ∧
    h = (span, some (.expression text (Turn.keys trail) span))

/-- A trail leads to every text with expressions that there is a hint for, also after a fault. -/
def traced (root : Node) : Property where
  Holds a := ∀ h ∈ a.hints, Hint.isExpression h.2 = true → ∃ trail, IsExpressionAt root trail h
  Left a := ∀ h ∈ a.hints, Hint.isExpression h.2 = true → ∃ trail, IsExpressionAt root trail h
  Allows _ := True
  placed _ := trivial
  left hhints h := hhints ▸ h
  same hhints _ h := hhints ▸ h
  report _ h := h
  hint hnot h k hk hexpression := by
    rcases mem_append.mp hk with hk | hk
    · exact h k hk hexpression
    · rw [mem_singleton.mp hk, hnot] at hexpression
      cases hexpression

theorem traced_of_nil {root a} (h : a.hints = []) : (traced root).Holds a := by
  intro k hk
  rw [h] at hk
  cases hk

/-! ## What is asked at the end of a trail -/

/-- What a part of a document is taken for may stand there. A text with expressions is plain, and a
plain value stands for a field of a record only as an entry. -/
structure Suits (part : Part) (node : Node) (map : Option MapKey) (m : Meaning) : Prop where
  typed : m.TypedIn (CwlType.MayFit part)
  expression : ∀ s, m = .expression s → part = .plain ∧ ∃ styled, node = .text s styled
  entry : ∀ name documented fields, m = .typed (.record name documented fields) → node.isMap = false →
    ∀ k ∈ map, k.predicate.isNull = false → ∃ c, part = .entry c ∧ k = c.mapKey

variable {part : Part} {node : Node} {m : Meaning}

theorem Suits.fits {map t} (h : Suits part node map (.typed t)) (ht : t ≠ .expression) :
    t.Fits part := h.typed.resolve_right ht

theorem Suits.leaf {map} (htyped : ∀ t, m ≠ .typed t) (hexpression : ∀ s, m ≠ .expression s) :
    Suits part node map m where
  typed := by
    cases m with
    | typed t => exact absurd rfl (htyped t)
    | _ => trivial
  expression := fun s hs => absurd hs (hexpression s)
  entry := fun _ _ _ hm => absurd hm (htyped _)

section

variable {env : Setting} {root : Node}

variable {l : Language} {trail : List Turn}

theorem suits_of_infer (hl : l.Fits) {allowed} (hallowed : ∀ t ∈ allowed, t.Fits part) {key asked}
    (hm : l.inference ⟨node, allowed, key, asked⟩ = .ok m) (map)
    (hentry : ∀ name documented fields, m = .typed (.record name documented fields) →
      node.isMap = false → ∀ k ∈ map, k.predicate.isNull = false → ∃ c, part = .entry c ∧ k = c.mapKey) :
    Suits part node map m where
  typed := by
    refine (infer_gives_of_class l node allowed key asked (P := CwlType.MayFit part)
      (fun t ht => .inl (hallowed t ht)) (fun n _ t hany _ ht => ?_) m hm).typedIn
    -- only a part that is no collection allows any type
    cases hallowed _ hany with
    | any hpart => exact hl.anywhere n t ht part hpart
  expression := by
    rintro s rfl
    obtain ⟨hmem, hnode⟩ := infer_expression hm
    cases hallowed _ hmem
    exact ⟨rfl, hnode⟩
  entry := hentry

theorem suits_of_taken (henv : env.meaning = env.language.inference) (hl : env.language.Fits)
    {name documented} {fields : Fields}
    (hrecord : CwlType.Fits part (.record name documented fields)) {k child}
    (hm : Taken env fields k child m) (map : Option MapKey) :
    Suits (.ofField k) child map m := by
  cases hm with
  | link => exact .leaf nofun nofun
  | namespaced name => exact .leaf nofun nofun
  | typed hk hfield hm =>
    subst hk
    cases hrecord with
    | record _ _ hfields halone =>
      rw [henv] at hm
      refine suits_of_infer hl (hfields _ hfield) hm map ?_
      rintro k documented others rfl hchild
      -- a plain value is taken for a record only where nothing else is allowed
      have hname := ((suits_of_infer hl (hfields _ hfield) hm none nofun).fits nofun).isPlainName_eq
      exact absurd (infer_record_alone hchild hname hm) (halone _ hfield _ _ _)

theorem keys_concat (trail t) : Turn.keys (trail ++ [t]) = Turn.keys trail ++ t.key?.toList := by
  rw [Turn.keys, filterMap_append]
  cases ht : t.key? <;> simp [Turn.keys, ht]

/-- An entry is one turn further than its collection, whether that is a list or a map. -/
theorem leads_entry {c value l e} (hleads : Leads root trail (.collection c) node value)
    (hl : (Listing.of node (.str c.subject)).2 = .ok l) (he : e ∈ l.entries) :
    Leads root (trail ++ [.entry e.key]) (.entry c) e.value (l.valueSpan e).toOption := by
  obtain ⟨hsource, ⟨form, es, places, rfl, hform, hmem⟩ | ⟨form, items, rfl, hform, hitem⟩⟩ := Listing.mem_of hl he
  · rw [Listing.valueSpan, hform, hsource]
    exact .entry hleads hmem
  · obtain ⟨⟨place, hplace⟩, own, hown, hkey⟩ := hitem
    rw [Listing.valueSpan, hform, hsource]
    exact .listed hleads hplace hown hkey

/-- What a visit is given: a part of the document at the end of a trail, the keys on the trail, and
what may stand there. -/
def AtTrail (root : Node) (m : Meaning) (node : Node) (ctx : Context) (map : Option MapKey)
    (value : Option Span) : Prop :=
  ∃ trail part, Leads root trail part node value ∧ ctx.path = Turn.keys trail ∧ Suits part node map m

theorem AtTrail.turn {t} {value : Except Fault Span}
    (h : Leads root (trail ++ [t]) part node value.toOption) {span} (hspan : value = .ok span)
    {ctx here : Context} (hpath : ctx.path = Turn.keys trail)
    (hhere : here.path = ctx.path ++ t.key?.toList) {map} (hm : Suits part node map m) :
      AtTrail root m node here map (some span) :=
  ⟨_, part, by simpa only [hspan, Except.toOption] using h, by rw [keys_concat, hhere, hpath], hm⟩

def alongTrails (henv : env.meaning = env.language.inference) (hl : env.language.Fits) (root : Node) :
    Contract env (traced root).kept where
  Admits m node ctx map _ value := AtTrail root m node ctx map value
  leaf _ _ _ _ := trivial
  expression := by
    rintro text node ctx map key value ⟨trail, part, hleads, hpath, hm⟩ a ha k hk hexpression
    rcases mem_append.mp hk with hk | hk
    · exact ha k hk hexpression
    · obtain ⟨rfl, styled, rfl⟩ := hm.expression text rfl
      exact ⟨trail, text, styled, value, hleads, by rw [mem_singleton.mp hk, hpath]⟩
  field := by
    rintro name documented fields form es ctx map key value ⟨trail, part, hleads, hpath, hm⟩ e he _ span _ hspan here
      hhere m htaken
    have hfits := hm.fits nofun
    have hpart : ∀ c, part ≠ .collection c := by cases hfits; assumption
    exact .turn (.field hleads hpart he) hspan hpath hhere (suits_of_taken henv hl hfits htaken map)
  standsFor := by
    rintro name documented fields node ctx k key value ⟨trail, part, hleads, hpath, hm⟩ hnode hnull
    refine ⟨fun _ _ => trivial, fun here hhere m htaken => ?_⟩
    have hfits := hm.fits nofun
    obtain ⟨⟨subject, predicate⟩, rfl, rfl⟩ := hm.entry _ _ _ rfl hnode k rfl hnull
    cases predicate with
    | none => cases hnull
    | some p =>
      refine ⟨_, _, .standsFor hleads hnode rfl, ?_, suits_of_taken henv hl hfits htaken _⟩
      rw [keys_concat, hhere, hpath]
      rfl
  item := by
    rintro name types node ctx map key value ⟨trail, part, hleads, hpath, hm⟩ parts hparts p hp m
      hmeaning span hspan here
      hhere
    obtain ⟨index, hindex⟩ := getElem?_of_mem hp
    rw [henv] at hmeaning
    cases hm.fits nofun with
    | array htypes =>
      exact .turn (.item hleads hparts hindex) hspan hpath (hhere.trans (append_nil _).symm)
        (suits_of_infer hl htypes hmeaning none nofun)
  entry := by
    rintro name types k node ctx map key value ⟨trail, part, hleads, hpath, hm⟩ l hlisting e he _ _ m hmeaning _ span _
      hspan here hhere
    rw [henv] at hmeaning
    cases hm.fits nofun with
    | listOrMap htypes =>
      refine .turn (leads_entry hleads hlisting he) hspan hpath hhere (suits_of_infer hl htypes hmeaning _ ?_)
      rintro _ _ _ _ _ k ⟨⟩ _
      exact ⟨_, rfl, rfl⟩

/-! ## Whole documents -/

theorem roots_fit (hl : l.Fits) (part) (hpart : ∀ n ∈ Language.processTypes, part.allows n = true) :
    ∀ t ∈ Language.processTypes.map fun n => (l.get? n).getD .missing, t.Fits part := by
  intro t ht
  obtain ⟨n, hn, rfl⟩ := mem_map.mp ht
  cases hget : l.get? n with
  | none => exact .missing part
  | some t => exact hl.named n t hget part (hpart n hn)

theorem walk_traced (env) (henv : env.meaning = env.language.inference) (hl : env.language.Fits)
    (loaded a) : Keeps (traced loaded.node).kept a (walk env loaded) Any := by
  refine .lift_bind fun m hm =>
    .discarded (visitTo_keeps (alongTrails henv hl _) _ ⟨[], .plain, .root, rfl, ?_⟩ trivial)
  rw [henv] at hm
  have hplain := roots_fit hl .plain fun _ _ => rfl
  refine ⟨(suits_of_infer hl hplain hm none nofun).typed, ?_, nofun⟩
  -- a process is no text with expressions, as no entry of a collection is one
  rintro s rfl
  cases roots_fit hl (.entry ⟨"", none⟩) (by decide) _ (infer_expression hm).1

end

end Analysis

namespace Document

open Analysis (IsExpressionAt)

theorem explore_traced (d : Document) (loaded problems site) :
    (Analysis.traced loaded.node).Holds
      ((d.forgotten.explore loaded problems Language.publishedCatalog).run site).1.document.analysis := by
  refine explore_cases (P := fun r => (Analysis.traced loaded.node).Holds r.1.document.analysis) _ loaded problems
    (fun _ => Analysis.traced_of_nil rfl) (fun _ _ _ => Analysis.traced_of_nil rfl) ?_
  intro form es language logs hnode hlanguage r
  obtain ⟨version, hmem⟩ := mem_of_languageFor hlanguage
  have hkept : (Analysis.traced loaded.node).kept.Kept _ _ r.1 := Analysis.walk_traced _ rfl
    (Language.published_fits _ hmem) loaded (beginning problems es) site.readers.links
  obtain ⟨_, _, hwalked⟩ := walked_eq
    { d.forgotten with problems, process := some loaded.full, analysis := beginning problems es } loaded logs r.1
  dsimp only
  rw [hwalked]
  generalize r.1 = outcome at hkept
  obtain ⟨_ | _, a⟩ := outcome
  · exact hkept (Analysis.traced_of_nil rfl)
  · exact hkept.1 (Analysis.traced_of_nil rfl)

/-- The path of every text with expressions is made of the keys on a trail that leads to it. When
lists with distinct keys become maps, the same trail leads to the same text, so its path stays; only
a text in the key of an item may be gone. -/
theorem expression_paths (d : Document) (loaded : Yaml.Reader.Loaded) (problems : List Diagnostic) (site : Site) :
    (∀ h ∈ ((d.forgotten.explore loaded problems Language.publishedCatalog).run site).1.document.analysis.hints,
      Hint.isExpression h.2 = true → ∃ trail, IsExpressionAt loaded.node trail h) ∧
    ∀ root', Node.Rewritten .plain loaded.node root' → ∀ trail span text path,
      IsExpressionAt loaded.node trail (span, some (.expression text path span)) →
      ThroughKey loaded.node trail ∨
        ∃ span', IsExpressionAt root' trail (span', some (.expression text path span')) := by
  refine ⟨explore_traced d loaded problems site, ?_⟩
  rintro root' hroot trail span text path ⟨_, styled, _, hleads, ⟨⟩⟩
  rcases hleads.rewritten hroot with hkey | ⟨node', span', hleads', hnode⟩
  · exact .inl hkey
  · cases hnode
    exact .inr ⟨span', text, styled, span', hleads', rfl⟩

/-- Hints of two documents for texts with expressions at one trail have one path. -/
theorem path_eq_of_trail {root root' trail span span' text text' path path' value value'}
    (h : IsExpressionAt root trail (span, some (.expression text path value)))
    (h' : IsExpressionAt root' trail (span', some (.expression text' path' value'))) :
    path = path' := by
  obtain ⟨_, _, _, _, ⟨⟩⟩ := h
  obtain ⟨_, _, _, _, ⟨⟩⟩ := h'
  rfl

/-- A step with a condition in a list, and in a map. -/
def conditions : Node × Node :=
  (.record [("steps", .list [.record [("id", .str "a"), ("when", .str "$(b)")]])],
    .record [("steps", .record [("a", .record [("when", .str "$(b)")])])])

theorem path_eq_of_trail_step : ∃ trail path path',
    IsExpressionAt conditions.1 trail (none, some (.expression "$(b)" path none)) ∧
    IsExpressionAt conditions.2 trail (none, some (.expression "$(b)" path' none)) ∧
    path = path' := by
  have hsteps : ∀ n : Node, Leads (.record [("steps", n)]) [.field (.str "steps")]
      (.collection ⟨"id", none⟩) n none := fun n => Leads.root.field (by simp) (.head _)
  have hlisted : Leads conditions.1 [.field (.str "steps"), .entry (.str "a")] (.entry ⟨"id", none⟩)
      (.record [("id", .str "a"), ("when", .str "$(b)")]) none :=
    @Leads.listed _ _ _ _ _ _ 0 (none, _) (.str "a") _ (hsteps _) rfl rfl (.inl rfl)
  have hmapped : Leads conditions.2 [.field (.str "steps"), .entry (.str "a")] (.entry ⟨"id", none⟩)
      (.record [("when", .str "$(b)")]) none := (hsteps _).entry (.head _)
  have h : IsExpressionAt conditions.1 _ _ :=
    ⟨_, false, none, hlisted.field (by simp) (.tail _ (.head _)), rfl⟩
  have h' : IsExpressionAt conditions.2 _ _ :=
    ⟨_, false, none, hmapped.field (by simp) (.head _), rfl⟩
  exact ⟨_, _, _, h, h', path_eq_of_trail h h'⟩

end Document
end CwlService
