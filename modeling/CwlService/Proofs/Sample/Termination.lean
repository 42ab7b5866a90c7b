import CwlService.Proofs.Sample.Values

/-! # When sampling ends

A sample of a type needs samples of others: of what a name stands for, of one of several alternatives, of the items
of a list, of the fields of a record. Nothing checks that this comes to an end. -/
namespace CwlService.Sample

open List

/-! ## What samples need -/

/-- What a sample of a type may need samples of. -/
def needed (types : Node.Entries) (type : Node) : List Node :=
  match type with
  | .seq _ items => items.map (·.2)
  | .map _ es =>
    match Node.Entries.field? es "type" with
    | none => []
    | some kind =>
      match kind.text? with
      | some "array" => [(Node.Entries.field? es "items").getD .null]
      | some "enum" => []
      | some "record" =>
        match fieldsOf es with
        | .ok fields => fields.map (·.value)
        -- the fields contain what they are in
        | .error .endless => [type]
        | .error _ => []
      | some "File" => []
      | _ => [kind]
  | .text s _ =>
    match itemName? (Text.withoutEnd "?" s) with
    | some item => [listOf item]
    | none => (types.field? (Text.withoutEnd "?" s)).toList
  | _ => []

/-! ## Drawings that end -/

/-- A drawing that ends, with a value or a fault. -/
abbrev Ends {α : Type} (x : Draw α) : Prop := Meets (· ≠ .endless) (fun _ => True) x fun _ => True

theorem Meets.ends {α : Type} {Q : α → Prop} {x} (hx : Meets (· ≠ .endless) (fun _ => True) x Q) : Ends x :=
  hx.weaken (fun _ => id) fun _ _ => trivial

section

variable {types : Node.Entries} {depth : Nat} {type u : Node}

theorem value_ends (hself : type ∉ needed types type)
    (h : ∀ u ∈ needed types type, ∀ name array, Ends (value types depth name u array)) (name) :
    Ends (value types (depth + 1) name type false) := by
  unfold needed at h hself
  unfold value
  cases type with
  | text s styled =>
    dsimp only at h ⊢
    cases hitem : itemName? (Text.withoutEnd "?" s) <;> rw [hitem] at h
    · dsimp only
      split <;> rename_i htype
      · exact h _ (by simp [htype]) name false
      · exact (basic_yields name _).ends
    · exact h _ (by simp) name false
  | map form es =>
    dsimp only at h hself ⊢
    split <;> rename_i htype <;> rw [htype] at h hself
    · exact .pure trivial
    dsimp only at h hself
    split <;> rename_i hkind <;> try rw [hkind] at h hself
    · exact h _ (by simp) name true
    · exact (symbol_yields _).ends
    · change Ends (liftM (fieldsOf es) >>= _)
      refine .bind (.lift_of fun f hf => ?_) fun fields hfields => ?_
      · intro hendless
        rw [hf, hendless] at hself
        simp at hself
      · rw [hfields] at h
        exact .bind (.mapM (R := fun _ _ => True) fun f hf => .bind (h _ (mem_map_of_mem hf) _ false) fun _ _ =>
          .pure trivial) fun _ _ => .pure trivial
    · exact (fileWith_yields name es).ends
    · refine h _ ?_ name false
      split <;> simp_all
  | seq form items =>
    refine .bind (below_yields _) fun i hi => ?_
    have hitem : (items[i]?.map (·.2)).getD .null = (items.get ⟨i, hi⟩).2 := by simp [hi]
    rw [hitem]
    exact h _ (mem_map_of_mem (get_mem items ⟨i, hi⟩)) name false
  | _ => exact .pure trivial

/-- A list takes a step more than its items. -/
theorem ends_of_rank {C : Node → Prop} {rank : Node → Nat}
    (hC : ∀ t, C t → ∀ u ∈ needed types t, C u ∧ rank u < rank t) (htype : C type)
    (hdepth : 2 * rank type + 1 ≤ depth) (name) : Ends (value types depth name type false) := by
  induction depth using Nat.strongRecOn generalizing type name with
  | ind depth ih =>
    obtain ⟨depth, rfl⟩ : ∃ d, depth = d + 1 := ⟨depth - 1, by omega⟩
    refine value_ends (fun hself => Nat.lt_irrefl _ (hC type htype type hself).2) (fun u hu name array => ?_) name
    obtain ⟨hu, hrank⟩ := hC type htype u hu
    cases array with
    | false => exact ih depth (by omega) hu (by omega) name
    | true =>
      obtain ⟨depth, rfl⟩ : ∃ d, depth = d + 1 := ⟨depth - 1, by omega⟩
      unfold value
      exact .bind (.mapM (R := fun _ _ => True) fun i _ => .bind (joinName_yields name _) fun _ _ =>
        ih depth (by omega) hu (by omega) _) fun _ _ => .pure trivial

/-! ## Drawings that do not end -/

/-- A drawing that gives a value if it ends. -/
abbrev Unfailing {α : Type} (x : Draw α) : Prop := Meets (· = .endless) (fun _ => True) x fun _ => True

/-- A drawing that goes on for ever. -/
abbrev Stalls {α : Type} (x : Draw α) : Prop := Meets (· = .endless) (fun _ => True) x fun _ => False

theorem Meets.stalls_bind {α β : Type} {x} {f : α → Draw β} (hx : Stalls x) : Stalls (x >>= f) :=
  .bind hx nofun

theorem Meets.stalls_mapM {α β : Type} {f : α → Draw β} {a} {after : List α} (ha : Stalls (f a)) :
    ∀ {before : List α}, (∀ b ∈ before, Unfailing (f b)) → Stalls ((before ++ a :: after).mapM f)
  | [], _ => by
    rw [nil_append, mapM_cons]
    exact .stalls_bind ha
  | b :: before, h => by
    rw [forall_mem_cons] at h
    rw [cons_append, mapM_cons]
    exact .bind h.1 fun _ _ => .stalls_bind (stalls_mapM ha h.2)

/-- What each sample of a type comes to need: the only alternative, or a field, after others that have values. -/
structure Demands (types : Node.Entries) (type u : Node) : Prop where
  among : ∃ before after, needed types type = before ++ u :: after ∧
    ∀ b ∈ before, ∀ depth name, Unfailing (value types depth (.str name) b false)
  only : type.isSeq = true → needed types type = [u]

theorem eq_of_singleton {a u} {before after : List Node} (h : [a] = before ++ u :: after) : a = u := by
  cases before <;> simp_all

theorem value_stalls (hu : Demands types type u)
    (h : ∀ less ≤ depth, ∀ name, Stalls (value types less (.str name) u false)) (name : String) :
    Stalls (value types (depth + 1) (.str name) type false) := by
  obtain ⟨⟨before, after, hneeded, hbefore⟩, honly⟩ := hu
  have hlast := h depth (Nat.le_refl _)
  unfold needed at hneeded honly
  unfold value
  cases type with
  | text s styled =>
    dsimp only at hneeded ⊢
    cases hitem : itemName? (Text.withoutEnd "?" s) <;> rw [hitem] at hneeded
    · cases htype : types.field? (Text.withoutEnd "?" s) with
      | none => simp [htype] at hneeded
      | some t =>
        rw [htype] at hneeded
        obtain rfl := eq_of_singleton hneeded
        exact hlast name
    · obtain rfl := eq_of_singleton hneeded
      exact hlast name
  | map form es =>
    dsimp only at hneeded ⊢
    split <;> rename_i htype <;> rw [htype] at hneeded
    · simp at hneeded
    rename_i kind
    dsimp only at hneeded
    split <;> rename_i hkind <;> try rw [hkind] at hneeded
    · obtain rfl := eq_of_singleton hneeded
      cases depth with
      | zero => exact .throw rfl
      | succ depth =>
        unfold value
        change Stalls ((0 :: [1, 2, 3]).mapM _ >>= _)
        rw [mapM_cons]
        refine .stalls_bind (.stalls_bind ?_)
        exact h depth (Nat.le_succ _) _
    · simp at hneeded
    · change Stalls (liftM (fieldsOf es) >>= _)
      refine .bind (.lift_of fun f hf => ?_) fun fields hfields => ?_
      · rw [hf] at hneeded
        cases f <;> simp at hneeded
        rfl
      · rw [hfields] at hneeded
        obtain ⟨first, rest, rfl, rfl, hrest⟩ := map_eq_append_iff.mp hneeded
        obtain ⟨f, last, rfl, rfl, -⟩ := map_eq_cons_iff.mp hrest
        refine .stalls_bind (.stalls_mapM ?_ fun b hb => ?_)
        · exact .stalls_bind (hlast _)
        · exact .bind (hbefore _ (mem_map_of_mem hb) depth _) fun _ _ => .pure trivial
    · simp at hneeded
    · have hother : [kind] = before ++ u :: after := by split at hneeded <;> simp_all
      obtain rfl := eq_of_singleton hother
      exact hlast name
  | seq form items =>
    obtain ⟨i, rfl, rfl⟩ := map_eq_singleton_iff.mp (honly rfl)
    intro s _
    have hdrawn : (below [i].length).run.run s = (.ok (_ % 1), _) := rfl
    rw [Nat.mod_one] at hdrawn
    rw [run_bind hdrawn]
    exact hlast name _ trivial
  | _ => simp at hneeded

theorem stalls_of_demands {C : Node → Prop} (hC : ∀ t, C t → ∃ u, C u ∧ Demands types t u)
    (htype : C type) (name) : Stalls (value types depth (.str name) type false) := by
  induction depth using Nat.strongRecOn generalizing type name with
  | ind depth ih =>
    cases depth with
    | zero => exact .throw rfl
    | succ depth =>
      obtain ⟨u, hu, hdemands⟩ := hC type htype
      exact value_stalls hdemands (fun less hless name => ih less (by omega) hu name) name

/-- Sampling ends, for all names and numbers, if some measure gets less along all that samples of a type come to
need. It does not end, for any name or numbers, if each type that is demanded on the way demands a further one, as
types do that refer to themselves. -/
theorem value_ends_or_stalls (types : Node.Entries) (type : Node) (C : Node → Prop) (htype : C type) :
    (∀ rank : Node → Nat, (∀ t, C t → ∀ u ∈ needed types t, C u ∧ rank u < rank t) →
      ∀ depth > 2 * rank type, ∀ name s, ((value types depth name type false).run.run s).1 ≠ .error .endless) ∧
    ((∀ t, C t → ∃ u, C u ∧ Demands types t u) →
      ∀ depth name s, ((value types depth (.str name) type false).run.run s).1 = .error .endless) := by
  refine ⟨fun rank hC depth hdepth name s h => (ends_of_rank hC htype hdepth name s trivial).1.2 _ h rfl,
    fun hC depth name s => ?_⟩
  obtain ⟨⟨-, hfault⟩, hvalue⟩ := stalls_of_demands hC htype name s trivial
  cases hrun : ((value types depth (.str name) type false).run.run s).1 with
  | error f => rw [hfault f hrun]
  | ok a => cases hvalue a hrun

/-- A record with a number and a link to a further one. -/
def link : Node := .record [("type", .str "record"), ("fields", .record [("n", .str "int"), ("next", .str "link?")])]

def links : Node.Entries := [(.str "link", none, link)]

theorem value_ends_or_stalls_links :
    (∀ depth > 0, ∀ name s, ((value links depth name (.str "int") false).run.run s).1 ≠ .error .endless) ∧
    ∀ depth name s, ((value links depth (.str name) link false).run.run s).1 = .error .endless := by
  have hint : Text.withoutEnd "?" "int" = "int" ∧ itemName? "int" = none := by decide +kernel
  have hlink : Text.withoutEnd "?" "link?" = "link" ∧ itemName? "link" = none := by decide +kernel
  have hn : ∀ depth name, Unfailing (value links depth (.str name) (.str "int") false) := by
    intro depth name
    cases depth with
    | zero => exact .throw rfl
    | succ depth =>
      intro s _
      refine ⟨⟨trivial, fun f h => ?_⟩, fun _ _ => trivial⟩
      unfold value at h
      dsimp only at h
      rw [hint.1, hint.2] at h
      cases h
  have hnext : Demands links link (.str "link?") := ⟨⟨[.str "int"], [], rfl, by simpa using hn⟩, fun h => by cases h⟩
  have hnamed : Demands links (.str "link?") link := by
    have hneeded : needed links (.str "link?") = [link] := by
      simp only [needed, hlink]
      rfl
    exact ⟨⟨[], [], hneeded, by simp⟩, fun h => by cases h⟩
  constructor
  · refine (value_ends_or_stalls links (.str "int") (· = .str "int") rfl).1 (fun _ => 0) ?_
    rintro _ rfl u hu
    simp only [needed, hint] at hu
    cases hu
  · refine (value_ends_or_stalls links link (fun t => t = link ∨ t = .str "link?") (.inl rfl)).2 ?_
    rintro t (rfl | rfl)
    · exact ⟨_, .inr rfl, hnext⟩
    · exact ⟨_, .inl rfl, hnamed⟩

end
end CwlService.Sample
