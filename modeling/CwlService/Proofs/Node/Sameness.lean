import CwlService.Proofs.Node.Keys
import CwlService.Proofs.Number.Binary64

/-! # Sameness of data

That two data are the same does not depend on the order in which they are compared, and
what is the same as one thing is the same as each other. Not everything is the same as
itself: what is no number at all never is. -/
namespace CwlService.Node

theorem sameNumber_comm (x y : Int ⊕ Binary64) : sameNumber x y = sameNumber y x := by
  cases x <;> cases y
  · exact BEq.comm
  · rfl
  · rfl
  · exact Binary64.same_comm _ _

theorem sameNumber_trans {x y z} (h : sameNumber x y = true) (h' : sameNumber y z = true) : sameNumber x z = true := by
  rcases x with a | x <;> rcases y with b | y <;> rcases z with c | z <;>
    simp only [sameNumber, beq_iff_eq] at h h' ⊢
  · exact h.trans h'
  · rw [h', h]
  · rw [h] at h'
    exact Option.some.inj h'
  · rw [← Binary64.toInt?_of_same h', h]
  · rw [h, h']
  · exact Binary64.same_of_toInt? h h'
  · rw [Binary64.toInt?_of_same h, h']
  · exact Binary64.same_trans h h'

/-- How two nodes can be the same. -/
inductive Kin : Node → Node → Prop
  | null : Kin .null .null
  | text {s styled styled'} : Kin (.text s styled) (.text s styled')
  | date {d identity identity'} : Kin (.date d identity) (.date d identity')
  | moment {m styled styled' identity identity'} :
      Kin (.moment m styled identity) (.moment m styled' identity')
  | bytes {bs} : Kin (.bytes bs) (.bytes bs)
  | tagged {s} : Kin (.tagged s) (.tagged s)
  | set {marked marked' as bs} : sameMembers as bs = true → Kin (.set marked as) (.set marked' bs)
  | seq {form form' as bs} : sameItems as bs = true → Kin (.seq form as) (.seq form' bs)
  | map {form form' as bs} : sameEntries as bs = true → Kin (.map form as) (.map form' bs)
  | number {a b x y} : a.number? = some x → b.number? = some y → sameNumber x y = true → Kin a b

theorem kin_of_same {a b} (h : a.same b = true) : Kin a b := by
  unfold same at h
  split at h
  · exact .null
  · exact eq_of_beq h ▸ .text
  · exact eq_of_beq h ▸ .date
  · exact eq_of_beq h ▸ .moment
  · exact eq_of_beq h ▸ .bytes
  · exact eq_of_beq h ▸ .tagged
  · exact .set h
  · exact .seq h
  · exact .map h
  · split at h
    · next hx hy => exact .number hx hy h
    · cases h

theorem same_of_kin {a b} (h : Kin a b) : a.same b = true := by
  cases h with
  | null =>
    unfold same
    rfl
  | text | date | moment | bytes | tagged =>
    unfold same
    exact beq_self_eq_true _
  | set h | seq h | map h =>
    unfold same
    exact h
  | number ha hb h =>
    unfold same
    split
    all_goals first
      | cases ha
      | rw [ha, hb]; exact h

theorem isKey_of_same {a b : Node} (h : a.same b = true) (hb : b.isKey = true) : a.isKey = true := by
  cases kin_of_same h with
  | set | seq | map => cases hb
  | number hx => cases a <;> first | rfl | cases hx
  | _ => rfl

theorem same_iff_kin {a b} : a.same b = true ↔ Kin a b := ⟨kin_of_same, same_of_kin⟩

mutual
/-- What is the same as something else is so either way round, and with whatever that is the same as. -/
theorem same_laws : ∀ (a b : Node), a.same b = true →
    b.same a = true ∧ ∀ c : Node, b.same c = true → a.same c = true
  | .set _ as, b, h => by
    cases same_iff_kin.mp h with
    | set hs =>
      obtain ⟨hsymm, htrans⟩ := sameMembers_laws as _ hs
      refine ⟨same_iff_kin.mpr (.set hsymm), fun c h' => ?_⟩
      cases same_iff_kin.mp h' with
      | set hs' => exact same_iff_kin.mpr (.set (htrans _ hs'))
      | number hb => cases hb
    | number ha => cases ha
  | .seq _ as, b, h => by
    cases same_iff_kin.mp h with
    | seq hs =>
      obtain ⟨hsymm, htrans⟩ := sameItems_laws as _ hs
      refine ⟨same_iff_kin.mpr (.seq hsymm), fun c h' => ?_⟩
      cases same_iff_kin.mp h' with
      | seq hs' => exact same_iff_kin.mpr (.seq (htrans _ hs'))
      | number hb => cases hb
    | number ha => cases ha
  | .map _ as, b, h => by
    cases same_iff_kin.mp h with
    | map hs =>
      obtain ⟨hsymm, htrans⟩ := sameEntries_laws as _ hs
      refine ⟨same_iff_kin.mpr (.map hsymm), fun c h' => ?_⟩
      cases same_iff_kin.mp h' with
      | map hs' => exact same_iff_kin.mpr (.map (htrans _ hs'))
      | number hb => cases hb
    | number ha => cases ha
  | .null, b, h | .bool _, b, h | .int _ _, b, h | .float _ _, b, h | .text _ _, b, h
  | .date _ _, b, h | .moment _ _ _, b, h | .bytes _, b, h | .tagged _, b, h | .again _, b, h => by
    simp only [same_iff_kin] at h ⊢
    cases h with
    | number ha hb hn =>
      refine ⟨.number hb ha (by rwa [sameNumber_comm]), fun c h' => ?_⟩
      cases h' with
      | number hb' hc hn' =>
        rw [hb] at hb'
        cases hb'
        exact .number ha hc (sameNumber_trans hn hn')
      | _ => cases hb
    | _ =>
      refine ⟨by constructor, fun c h' => ?_⟩
      cases h' with
      | number hb => cases hb
      | _ => constructor

theorem sameMembers_laws : ∀ as bs : List Node, sameMembers as bs = true →
    sameMembers bs as = true ∧ ∀ cs, sameMembers bs cs = true → sameMembers as cs = true
  | [], [], h => ⟨h, fun _ => id⟩
  | a :: as, b :: bs, h => by
    simp only [sameMembers, Bool.and_eq_true] at h ⊢
    obtain ⟨hsymm, htrans⟩ := same_laws a b h.1
    obtain ⟨hsymms, htranss⟩ := sameMembers_laws as bs h.2
    refine ⟨⟨hsymm, hsymms⟩, fun cs h' => ?_⟩
    cases cs with
    | nil => simp [sameMembers] at h'
    | cons c cs =>
      simp only [sameMembers, Bool.and_eq_true] at h' ⊢
      exact ⟨htrans c h'.1, htranss cs h'.2⟩
  | [], _ :: _, h | _ :: _, [], h => by simp [sameMembers] at h

theorem sameItems_laws : ∀ as bs : Items, sameItems as bs = true →
    sameItems bs as = true ∧ ∀ cs, sameItems bs cs = true → sameItems as cs = true
  | [], [], h => ⟨h, fun _ => id⟩
  | (_, a) :: as, (_, b) :: bs, h => by
    simp only [sameItems, Bool.and_eq_true] at h ⊢
    obtain ⟨hsymm, htrans⟩ := same_laws a b h.1
    obtain ⟨hsymms, htranss⟩ := sameItems_laws as bs h.2
    refine ⟨⟨hsymm, hsymms⟩, fun cs h' => ?_⟩
    rcases cs with _ | ⟨⟨_, c⟩, cs⟩
    · simp [sameItems] at h'
    · simp only [sameItems, Bool.and_eq_true] at h' ⊢
      exact ⟨htrans c h'.1, htranss cs h'.2⟩
  | [], _ :: _, h | _ :: _, [], h => by simp [sameItems] at h

theorem sameEntries_laws : ∀ as bs : Entries, sameEntries as bs = true →
    sameEntries bs as = true ∧ ∀ cs, sameEntries bs cs = true → sameEntries as cs = true
  | [], [], h => ⟨h, fun _ => id⟩
  | (k, _, a) :: as, (l, _, b) :: bs, h => by
    simp only [sameEntries, Bool.and_eq_true] at h ⊢
    obtain ⟨hkey, hkeys⟩ := same_laws k l h.1.1
    obtain ⟨hsymm, htrans⟩ := same_laws a b h.1.2
    obtain ⟨hsymms, htranss⟩ := sameEntries_laws as bs h.2
    refine ⟨⟨⟨hkey, hsymm⟩, hsymms⟩, fun cs h' => ?_⟩
    rcases cs with _ | ⟨⟨m, _, c⟩, cs⟩
    · simp [sameEntries] at h'
    · simp only [sameEntries, Bool.and_eq_true] at h' ⊢
      exact ⟨⟨hkeys m h'.1.1, htrans c h'.1.2⟩, htranss cs h'.2⟩
  | [], _ :: _, h | _ :: _, [], h => by simp [sameEntries] at h
end

theorem same_symm (a b : Node) (h : a.same b = true) : b.same a = true := (same_laws a b h).1

theorem same_trans (a b c : Node) (h : a.same b = true) : b.same c = true → a.same c = true := (same_laws a b h).2 c

theorem same_comm (a b : Node) : a.same b = b.same a := by
  rw [Bool.eq_iff_iff]
  exact ⟨same_symm a b, same_symm b a⟩

theorem same_congr {a b : Node} (h : a.same b = true) (c : Node) : a.same c = b.same c := by
  rw [Bool.eq_iff_iff]
  exact ⟨same_trans _ _ _ (same_symm _ _ h), same_trans _ _ _ h⟩

theorem isName_of_same {a b : Node} (h : a.same b = true) (s) : a.isName s = b.isName s := by
  have hstr := same_congr h (.str s)
  rwa [Node.str, same_text, same_text] at hstr

end CwlService.Node
