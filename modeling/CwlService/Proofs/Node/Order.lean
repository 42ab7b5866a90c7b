import CwlService.Node.Order
import CwlService.Proofs.Node.NameSet
import Mathlib.Data.List.Nodup
import Mathlib.Data.List.Pairwise

/-! # Keys in order

Putting keys in order gives the same keys, each after those that come before it. So texts in
order do not depend on the order in which they were given. -/
namespace CwlService.Node

open List

/-! ## Putting in order -/

section

variable {α : Type} {before? : α → α → Option Bool} {le : α → α → Prop}

/-- A comparison that tells a transitive order. -/
structure Tells (before? : α → α → Option Bool) (le : α → α → Prop) : Prop where
  before : ∀ {a b}, before? a b = some true → le a b
  behind : ∀ {a b}, before? a b = some false → le b a
  trans : ∀ {a b c}, le a b → le b c → le a c

variable {xs : Array α}

theorem le_of_pairwise (hsorted : xs.toList.Pairwise le) {j k : Nat} {y z} (hjk : j < k)
    (hy : xs[j]? = some y) (hz : xs[k]? = some z) : le y z := by
  obtain ⟨hj, rfl⟩ := Array.getElem?_eq_some_iff.mp hy
  obtain ⟨hk, rfl⟩ := Array.getElem?_eq_some_iff.mp hz
  exact pairwise_iff_getElem.mp hsorted j k (by simpa using hj) (by simpa using hk) hjk

variable (htells : Tells before? le)

include htells

/-- The position of an element is behind those that are not after it and before the others. -/
theorem position?_spec {x} (hsorted : xs.toList.Pairwise le) {lo hi i} (hhi : hi ≤ xs.size)
    (hlo : lo ≤ hi) (h : position? before? x xs lo hi = some i) :
    lo ≤ i ∧ i ≤ hi ∧ (∀ j y, lo ≤ j → j < i → xs[j]? = some y → le y x) ∧
      ∀ j y, i ≤ j → j < hi → xs[j]? = some y → le x y := by
  fun_induction position? before? x xs lo hi with
  | case1 lo hi hlt mid hnone =>
    have hmid : mid = lo + (hi - lo) / 2 := rfl
    have hsize := Array.getElem?_eq_none_iff.mp hnone
    omega
  | case2 lo hi hlt mid y hy ih ih' =>
    have hmid : mid = lo + (hi - lo) / 2 := rfl
    cases hbefore : before? x y with
    | none => rw [hbefore] at h; cases h
    | some isBefore =>
      rw [hbefore] at h
      cases isBefore with
      | true =>
        -- what comes behind the middle is not before it
        obtain ⟨hle, hle', hleft, hright⟩ := ih (by omega) (by omega) h
        refine ⟨hle, by omega, hleft, ?_⟩
        intro j z hj hj' hz
        by_cases hjm : j < mid
        · exact hright j z hj hjm hz
        · rcases Nat.lt_or_eq_of_le (Nat.le_of_not_lt hjm) with hlt | rfl
          · exact htells.trans (htells.before hbefore) (le_of_pairwise hsorted hlt hy hz)
          · rw [hy] at hz
            cases hz
            exact htells.before hbefore
      | false =>
        obtain ⟨hle, hle', hleft, hright⟩ := ih' (by omega) (by omega) h
        refine ⟨by omega, hle', ?_, hright⟩
        intro j z hj hj' hz
        by_cases hjm : mid < j
        · exact hleft j z hjm hj' hz
        · rcases Nat.lt_or_eq_of_le (Nat.le_of_not_lt hjm) with hlt | rfl
          · exact htells.trans (le_of_pairwise hsorted hlt hz hy) (htells.behind hbefore)
          · rw [hy] at hz
            cases hz
            exact htells.behind hbefore
  | case3 lo hi hge =>
    cases h
    exact ⟨Nat.le_refl _, hlo, fun j y hj hj' => by omega, fun j y hj hj' => by omega⟩

theorem insertIdx_sorted {x} (hsorted : xs.toList.Pairwise le) {i}
    (h : position? before? x xs 0 xs.size = some i) : (xs.insertIdxIfInBounds i x).toList.Pairwise le ∧
      (xs.insertIdxIfInBounds i x).toList.Perm (x :: xs.toList) := by
  obtain ⟨_, hi, hleft, hright⟩ := position?_spec htells hsorted (Nat.le_refl _) (Nat.zero_le _) h
  have hlist : (xs.insertIdxIfInBounds i x).toList = xs.toList.take i ++ x :: xs.toList.drop i := by
    have hlength : i ≤ xs.toList.length := by simpa using hi
    obtain ⟨front, back, hxs, rfl, hinsert⟩ := exists_of_modifyTailIdx (cons x) hlength
    rw [Array.insertIdxIfInBounds, dif_pos hi, Array.toList_insertIdx, insertIdx, hinsert, hxs,
      take_left, drop_left]
  have hparts : xs.toList.take i ++ xs.toList.drop i = xs.toList := take_append_drop i xs.toList
  rw [hlist]
  constructor
  · rw [← hparts, pairwise_append] at hsorted
    refine pairwise_append.mpr ⟨hsorted.1, pairwise_cons.mpr ⟨?_, hsorted.2.1⟩, ?_⟩
    · intro y hy
      obtain ⟨j, hj⟩ := mem_iff_getElem?.mp hy
      rw [getElem?_drop] at hj
      obtain ⟨hlt, _⟩ := List.getElem?_eq_some_iff.mp hj
      exact hright (i + j) y (by omega) (by simpa using hlt) (by simpa using hj)
    · have hbefore : ∀ y ∈ xs.toList.take i, le y x := by
        intro y hy
        obtain ⟨j, hj⟩ := mem_iff_getElem?.mp hy
        rw [getElem?_take] at hj
        split at hj
        · rename_i hlt
          exact hleft j y (Nat.zero_le _) hlt (by simpa using hj)
        · cases hj
      intro y hy z hz
      rcases mem_cons.mp hz with rfl | hz
      · exact hbefore y hy
      · exact hsorted.2.2 y hy z hz
  · calc xs.toList.take i ++ x :: xs.toList.drop i
      _ |>.Perm (x :: (xs.toList.take i ++ xs.toList.drop i)) := perm_middle
      _ = x :: xs.toList := by rw [hparts]

theorem insertAll?_sorted : ∀ {rest xs ys},
    xs.toList.Pairwise le → insertAll? before? rest xs = some ys →
      ys.Pairwise le ∧ ys.Perm (xs.toList ++ rest)
  | [], xs, ys, hsorted, h => by
    cases h
    exact ⟨hsorted, by rw [append_nil]⟩
  | x :: rest, xs, ys, hsorted, h => by
    obtain ⟨i, hi, hrest⟩ := Option.bind_eq_some_iff.mp h
    obtain ⟨hsorted', hperm⟩ := insertIdx_sorted htells hsorted hi
    obtain ⟨hys, hperm'⟩ := insertAll?_sorted hsorted' hrest
    refine ⟨hys, hperm'.trans ?_⟩
    exact (hperm.append_right rest).trans perm_middle.symm

theorem run?_sorted (falling : Bool) : ∀ {last acc rest taken others},
    (if falling then (last :: acc).Pairwise le else (last :: acc).reverse.Pairwise le) →
      run? before? falling last (last :: acc) rest = some (taken, others) →
      (if falling then taken.Pairwise le else taken.reverse.Pairwise le) ∧
        (taken ++ others).Perm (last :: acc ++ rest)
  | last, acc, [], taken, others, hacc, h => by
    cases h
    exact ⟨hacc, .refl _⟩
  | last, acc, x :: rest, taken, others, hacc, h => by
    obtain ⟨isBefore, hbefore, h⟩ := Option.bind_eq_some_iff.mp h
    split at h
    · rename_i hgoes
      obtain rfl : isBefore = falling := by simpa using hgoes
      have hnext : if isBefore then (x :: last :: acc).Pairwise le
          else (x :: last :: acc).reverse.Pairwise le := by
        cases isBefore with
        | true =>
          have hx := htells.before hbefore
          refine pairwise_cons.mpr ⟨?_, hacc⟩
          intro y hy
          rcases mem_cons.mp hy with rfl | hy
          · exact hx
          · exact htells.trans hx ((pairwise_cons.mp hacc).1 y hy)
        | false =>
          have hx := htells.behind hbefore
          have hacc' : (last :: acc).reverse.Pairwise le := hacc
          show (x :: last :: acc).reverse.Pairwise le
          rw [reverse_cons, pairwise_append]
          refine ⟨hacc', pairwise_singleton _ _, ?_⟩
          intro y hy z hz
          rw [mem_singleton.mp hz]
          rcases mem_cons.mp (mem_reverse.mp hy) with rfl | hy
          · exact hx
          · rw [reverse_cons, pairwise_append] at hacc'
            exact htells.trans (hacc'.2.2 y (mem_reverse.mpr hy) last (by simp)) hx
      obtain ⟨htaken, hperm⟩ := run?_sorted isBefore hnext h
      exact ⟨htaken, hperm.trans perm_middle.symm⟩
    · cases h
      exact ⟨hacc, .refl _⟩

theorem inOrder?_sorted {xs ys} (h : inOrder? before? xs = some ys) :
    ys.Pairwise le ∧ ys.Perm xs := by
  match xs, h with
  | [], h =>
    cases h
    exact ⟨.nil, .refl _⟩
  | [x], h =>
    cases h
    exact ⟨pairwise_singleton _ _, .refl _⟩
  | x :: y :: rest, h =>
    obtain ⟨falling, hfalling, h⟩ := Option.bind_eq_some_iff.mp h
    obtain ⟨⟨taken, others⟩, hrun, h⟩ := Option.bind_eq_some_iff.mp h
    have htwo : if falling then [y, x].Pairwise le else [y, x].reverse.Pairwise le := by
      cases falling with
      | true =>
        exact pairwise_pair.mpr (htells.before hfalling)
      | false =>
        exact pairwise_pair.mpr (htells.behind hfalling)
    obtain ⟨htaken, hperm⟩ := run?_sorted htells falling htwo hrun
    have hstart : (if falling then taken else taken.reverse).toArray.toList.Pairwise le := by
      cases falling <;> exact htaken
    obtain ⟨hys, hperm'⟩ := insertAll?_sorted htells hstart h
    refine ⟨hys, hperm'.trans (.trans ?_ (hperm.trans (.swap x y rest)))⟩
    refine Perm.append_right others ?_
    cases falling with
    | true => exact .refl _
    | false => exact reverse_perm taken

end

/-! ## Texts -/

/-- The order of texts. What is no text is beside texts, neither before nor behind. -/
def TextLe (a b : Node) : Prop :=
  match a.text?, b.text? with
  | some s, some t => (compare s t).isLE = true
  | none, none => True
  | _, _ => False

variable {a b : Node} {ms ns : List Node}

theorem less?_spec {isLess} (h : less? a b = some isLess) :
    (∃ s t, a.text? = some s ∧ b.text? = some t ∧ isLess = (compare s t == .lt)) ∨
      a.text? = none ∧ b.text? = none := by
  unfold less? at h
  split at h
  · cases h
    exact .inl ⟨_, _, rfl, rfl, rfl⟩
  · exact .inr ⟨rfl, rfl⟩
  · exact .inr ⟨rfl, rfl⟩
  · exact .inr ⟨rfl, rfl⟩
  · exact .inr ⟨rfl, rfl⟩
  · split at h
    · rename_i x y hx hy
      refine .inr ⟨?_, ?_⟩
      · cases a <;> first | rfl | cases hx
      · cases b <;> first | rfl | cases hy
    · cases h

theorem less?_tells : Tells less? TextLe where
  before := by
    intro a b h
    unfold TextLe
    rcases less?_spec h with ⟨s, t, hs, ht, hless⟩ | ⟨ha, hb⟩
    · rw [hs, ht]
      have hlt : compare s t = .lt := by simpa using hless.symm
      show (compare s t).isLE = true
      rw [hlt]
      rfl
    · rw [ha, hb]
      trivial
  behind := by
    intro a b h
    unfold TextLe
    rcases less?_spec h with ⟨s, t, hs, ht, hless⟩ | ⟨ha, hb⟩
    · rw [hs, ht]
      have hnlt : compare s t ≠ .lt := by simpa using hless.symm
      show (compare t s).isLE = true
      rw [Std.OrientedOrd.eq_swap, Ordering.isLE_swap, Ordering.isGE_iff_ne_lt]
      exact hnlt
    · rw [ha, hb]
      trivial
  trans := by
    intro a b c hab hbc
    unfold TextLe at *
    cases ha : a.text? <;> cases hb : b.text? <;> cases hc : c.text? <;> simp_all
    exact Std.TransCmp.isLE_trans hab hbc

theorem TextLe.isText_eq (h : TextLe a b) : a.isText = b.isText := by
  cases a <;> cases b <;> first | rfl | exact h.elim

theorem TextLe.antisymm (h : TextLe a b) (h' : TextLe b a) (hb : b.isText = true) : a.text? = b.text? := by
  unfold TextLe at h h'
  cases ha : a.text? with
  | none =>
    obtain ⟨t, styled, rfl⟩ := isText_iff.mp hb
    rw [ha] at h
    exact h.elim
  | some s =>
    obtain ⟨t, styled, rfl⟩ := isText_iff.mp hb
    rw [ha] at h h'
    have hst : compare s t = .eq := Std.OrientedCmp.isLE_antisymm h h'
    rw [Std.LawfulEqOrd.eq_of_compare hst]
    rfl

theorem isText_of_sorted (h : sorted? ns = some ms) {n} (hn : n ∈ ns) (htext : n.isText = true) :
    ∀ m ∈ ns, m.isText = true := by
  obtain ⟨hsorted, hperm⟩ := inOrder?_sorted less?_tells h
  have hkinds : ms.Pairwise fun a b => a.isText = b.isText := hsorted.imp TextLe.isText_eq
  have hall := Pairwise.forall_of_forall_of_flip (R := fun a b : Node => a.isText = b.isText)
    (fun _ _ => rfl) hkinds (hkinds.imp Eq.symm)
  intro m hm
  rw [← hall (hperm.mem_iff.mpr hn) (hperm.mem_iff.mpr hm)]
  exact htext

theorem less?_of_textLe (h : TextLe a b) (ha : a.isText = true) : less? b a = some false := by
  obtain ⟨s, styled, rfl⟩ := isText_iff.mp ha
  obtain ⟨t, styled', rfl⟩ := isText_iff.mp (h.isText_eq.symm.trans ha)
  have hle : (compare s t).isLE = true := h
  rw [Std.OrientedOrd.eq_swap, Ordering.isLE_swap, Ordering.isGE_iff_ne_lt] at hle
  simp [less?, hle]

theorem sorted?_eq_self (h : ns.Pairwise TextLe) (htexts : ∀ n ∈ ns, n.isText = true) : sorted? ns = some ns := by
  have hrun : ∀ (last : Node) (acc rest : List Node), (last :: rest).Pairwise TextLe → last.isText = true →
      run? less? false last acc rest = some (rest.reverse ++ acc, []) := by
    intro last acc rest
    induction rest generalizing last acc with
    | nil => exact fun _ _ => rfl
    | cons x rest ih =>
      intro hsorted hlast
      obtain ⟨hle, hrest⟩ := pairwise_cons.mp hsorted
      have hx := hle x (by simp)
      rw [run?, less?_of_textLe hx hlast]
      simpa using ih x (x :: acc) hrest (hx.isText_eq.symm.trans hlast)
  match ns with
  | [] | [_] => rfl
  | x :: y :: rest =>
    obtain ⟨hle, hrest⟩ := pairwise_cons.mp h
    have hy := hle y (by simp)
    have hx := htexts x (by simp)
    rw [sorted?, inOrder?, less?_of_textLe hy hx]
    have hall := hrun y [y, x] rest hrest (hy.isText_eq.symm.trans hx)
    simp [hall, insertAll?]

theorem shownList_texts (htexts : ∀ n ∈ ns, n.isText = true) :
    shownList ns = "[" ++ ", ".intercalate ((ns.filterMap text?).map Text.quote) ++ "]" := by
  have hinner : ns.map inner = (ns.filterMap text?).map Text.quote := by
    induction ns with
    | nil => rfl
    | cons n ns ih =>
      rw [forall_mem_cons] at htexts
      obtain ⟨s, styled, rfl⟩ := isText_iff.mp htexts.1
      rw [map_cons, ih htexts.2, inner, innerIn]
      rfl
  rw [shownList, hinner]

theorem same_iff_text?_eq (ha : a.isText = true) : a.same b = true ↔ a.text? = b.text? := by
  obtain ⟨s, styled, rfl⟩ := isText_iff.mp ha
  rw [same_of_isName (n := s) (by simp [isName])]
  cases b <;> simp [isName, text?]
  exact eq_comm

theorem nodup_texts_iff (htexts : ∀ n ∈ ns, n.isText = true) :
    (ns.map text?).Nodup ↔ ns.Pairwise fun a b => a.same b = false := by
  rw [Nodup, pairwise_map]
  refine Pairwise.iff_of_mem ?_
  intro a b ha _
  rw [← Bool.not_eq_true, same_iff_text?_eq (htexts a ha)]

theorem eq_of_textLe (hns : ns.Pairwise TextLe) (hms : ms.Pairwise TextLe) (hperm : ns.Perm ms)
    (htexts : ∀ n ∈ ms, n.isText = true) (hdistinct : (ms.map text?).Nodup) : ns = ms := by
  refine Perm.eq_of_pairwise ?_ hns hms hperm
  intro a b ha hb hab hba
  exact inj_on_of_nodup_map hdistinct (hperm.mem_iff.mp ha) hb (hab.antisymm hba (htexts b hb))

end CwlService.Node

/-! ## Sets of names -/

namespace CwlService.NameSet

open List

theorem precedes_total (a b : Node) : precedes a b = true ∨ precedes b a = true := by
  have htotal : ∀ s t : String, compare s t ≠ .gt ∨ compare t s ≠ .gt := by
    intro s t
    by_cases hst : compare s t = .gt
    · right
      rw [Std.OrientedOrd.eq_swap, hst]
      decide
    · exact .inl hst
  unfold precedes
  cases a.text? <;> cases b.text? <;> simp [htotal]

theorem precedes_trans {a b c} (hab : precedes a b = true) (hbc : precedes b c = true) :
    precedes a c = true := by
  have htrans : ∀ s t u : String, compare s t ≠ .gt → compare t u ≠ .gt → compare s u ≠ .gt := by
    intro s t u hst htu
    have hsu := Std.TransCmp.isLE_trans (Ordering.isLE_iff_ne_gt.mpr hst) (Ordering.isLE_iff_ne_gt.mpr htu)
    exact Ordering.isLE_iff_ne_gt.mp hsu
  unfold precedes at *
  cases ha : a.text? <;> cases hb : b.text? <;> cases hc : c.text? <;> simp_all
  · exact htrans _ _ _ hab hbc
  · exact htrans _ _ _ hab hbc

variable {s : NameSet} {ms ns ns' : List Node}

theorem insert_sorted (h : s.members.Pairwise fun a b => precedes a b = true) (n : Node) :
    (s.insert n).members.Pairwise fun a b => precedes a b = true := by
  unfold insert
  split
  · exact h
  rw [← takeWhile_append_dropWhile (p := fun m => precedes m n) (l := s.members), pairwise_append] at h
  obtain ⟨hfront, hback, hacross⟩ := h
  have hbefore : ∀ m ∈ s.members.takeWhile (fun m => precedes m n), precedes m n = true :=
    all_eq_true.mp all_takeWhile
  have hbehind : ∀ m ∈ s.members.dropWhile (fun m => precedes m n), precedes n m = true := by
    generalize hrest : s.members.dropWhile (fun m => precedes m n) = rest at hback
    cases rest with
    | nil => simp
    | cons first rest =>
      have hfirst : precedes n first = true := by
        have hnot := head?_dropWhile_not (fun m => precedes m n) s.members
        rw [hrest] at hnot
        exact (precedes_total n first).resolve_right (by simpa using hnot)
      intro m hm
      rcases mem_cons.mp hm with rfl | hm
      · exact hfirst
      · exact precedes_trans hfirst ((pairwise_cons.mp hback).1 m hm)
  refine pairwise_append.mpr ⟨hfront, pairwise_cons.mpr ⟨hbehind, hback⟩, ?_⟩
  intro a ha b hb
  rcases mem_cons.mp hb with rfl | hb
  · exact hbefore a ha
  · exact hacross a ha b hb

theorem ofList_induction {P : NameSet → Prop} (hempty : P empty)
    (hinsert : ∀ s, P s → ∀ n ∈ ns, P (s.insert n)) : P (ofList ns) := foldlRecOn ns insert hempty hinsert

theorem ofList_sorted (ns) : (ofList ns).members.Pairwise fun a b => precedes a b = true := by
  refine ofList_induction (P := fun s => s.members.Pairwise fun a b => precedes a b = true) .nil ?_
  exact fun s h n _ => insert_sorted h n

theorem insert_perm {n} (h : s.contains n = false) : (s.insert n).members.Perm (n :: s.members) := by
  unfold insert
  rw [if_neg (by simp [h])]
  refine perm_middle.trans (.cons n ?_)
  rw [takeWhile_append_dropWhile]

theorem ofList_distinct (ns) : (ofList ns).members.Pairwise fun a b => a.same b = false := by
  refine ofList_induction (P := fun s => s.members.Pairwise fun a b => a.same b = false) .nil ?_
  intro s h n _
  cases hn : s.contains n with
  | true => rwa [insert, if_pos hn]
  | false =>
    refine (insert_perm hn).symm.pairwise (pairwise_cons.mpr ⟨?_, h⟩) ?_
    · intro m hm
      rw [Node.same_comm]
      exact any_eq_false.mp hn m hm |> Bool.eq_false_iff.mpr
    · intro a b hab
      rwa [Node.same_comm]

theorem mem_of_mem_ofList {n} (h : n ∈ (ofList ns).members) : n ∈ ns := by
  refine ofList_induction (P := fun s => n ∈ s.members → n ∈ ns) nofun ?_ h
  intro s hs m hm h
  cases hnew : s.contains m with
  | true => exact hs (by rwa [insert, if_pos hnew] at h)
  | false =>
    rcases mem_cons.mp ((insert_perm hnew).mem_iff.mp h) with rfl | h
    · exact hm
    · exact hs h

theorem ofList_perm (h : ns.Pairwise fun a b => a.same b = false) : (ofList ns).members.Perm ns := by
  have hfold : ∀ (ns : List Node) (s : NameSet),
      ((s.members ++ ns).Pairwise fun a b => a.same b = false) →
      (ns.foldl insert s).members.Perm (s.members ++ ns) := by
    intro ns
    induction ns with
    | nil => intro s _; rw [append_nil]; exact .refl _
    | cons n ns ih =>
      intro s h
      have hnew : s.contains n = false := by
        rw [contains, any_eq_false]
        intro m hm
        rw [(pairwise_append.mp h).2.2 m hm n (by simp)]
        exact Bool.false_ne_true
      have hperm : ((s.insert n).members ++ ns).Perm (s.members ++ n :: ns) :=
        ((insert_perm hnew).append_right ns).trans perm_middle.symm
      refine (ih _ ?_).trans hperm
      refine hperm.symm.pairwise h ?_
      intro a b hab
      rwa [Node.same_comm]
  exact hfold ns empty h

theorem ofList_textLe (htexts : ∀ n ∈ (ofList ns).members, n.isText = true) :
    (ofList ns).members.Pairwise Node.TextLe := by
  refine (ofList_sorted ns).imp_of_mem ?_
  intro a b ha hb hab
  obtain ⟨s, styled, rfl⟩ := Node.isText_iff.mp (htexts a ha)
  obtain ⟨t, styled', rfl⟩ := Node.isText_iff.mp (htexts b hb)
  exact Ordering.isLE_iff_ne_gt.mpr (by simpa [precedes, Node.text?] using hab)

theorem ofList_eq_of_perm (hperm : ns.Perm ns') (htexts : ∀ n ∈ ns, n.isText = true)
    (hdistinct : (ns.map Node.text?).Nodup) : ofList ns = ofList ns' := by
  have htexts' : ∀ n ∈ ns', n.isText = true := fun n hn => htexts n (hperm.mem_iff.mpr hn)
  have hdistinct' : (ns'.map Node.text?).Nodup := (hperm.map _).nodup_iff.mp hdistinct
  have hns := ofList_perm ((Node.nodup_texts_iff htexts).mp hdistinct)
  have hns' := ofList_perm ((Node.nodup_texts_iff htexts').mp hdistinct')
  have heq : (ofList ns).members = (ofList ns').members := by
    refine Node.eq_of_textLe ?_ ?_ (hns.trans (hperm.trans hns'.symm)) ?_ ?_
    · exact ofList_textLe fun n hn => htexts n (hns.mem_iff.mp hn)
    · exact ofList_textLe fun n hn => htexts' n (hns'.mem_iff.mp hn)
    · exact fun n hn => htexts' n (hns'.mem_iff.mp hn)
    · exact (hns'.map _).nodup_iff.mpr hdistinct'
  rw [← mk.injEq] at heq
  exact heq

theorem eq_ofList_of_sorted (h : Node.sorted? ns = some ms) (htexts : ∀ n ∈ ns, n.isText = true)
    (hdistinct : (ns.map Node.text?).Nodup) : ms = (ofList ns).members := by
  obtain ⟨hsorted, hms⟩ := Node.inOrder?_sorted Node.less?_tells h
  have hns := ofList_perm ((Node.nodup_texts_iff htexts).mp hdistinct)
  have htexts' : ∀ n ∈ (ofList ns).members, n.isText = true := fun n hn => htexts n (hns.mem_iff.mp hn)
  exact Node.eq_of_textLe hsorted (ofList_textLe htexts') (hms.trans hns.symm) htexts'
    ((hns.map _).nodup_iff.mpr hdistinct)

theorem eq_members_of_sorted (h : Node.sorted? (ofList ns).members = some ms)
    (htexts : ∀ n ∈ (ofList ns).members, n.isText = true) : ms = (ofList ns).members := by
  obtain ⟨hsorted, hms⟩ := Node.inOrder?_sorted Node.less?_tells h
  exact Node.eq_of_textLe hsorted (ofList_textLe htexts) hms htexts
    ((Node.nodup_texts_iff htexts).mpr (ofList_distinct ns))

theorem texts_sorted (ns : List Node) :
    ((ofList ns).members.filterMap Node.text?).Pairwise fun s t => compare s t = .lt := by
  rw [pairwise_filterMap]
  refine ((ofList_sorted ns).and (ofList_distinct ns)).imp ?_
  rintro a b ⟨hab, hdistinct⟩ s hs t ht
  have hle : compare s t ≠ .gt := by simpa [precedes, hs, ht] using hab
  have hne : compare s t ≠ .eq := by
    intro heq
    have hsame : a.same b = true := by
      rw [Node.same_iff_text?_eq (by cases a <;> first | rfl | cases hs), hs, ht,
        Std.LawfulEqOrd.eq_of_compare heq]
    rw [hsame] at hdistinct
    cases hdistinct
  cases hcompare : compare s t with
  | lt => rfl
  | eq => exact (hne hcompare).elim
  | gt => exact (hle hcompare).elim

theorem mem_texts_iff (ns : List Node) (s : String) :
    s ∈ (ofList ns).members.filterMap Node.text? ↔ (ofList ns).contains (.str s) = true := by
  simp only [mem_filterMap, contains_iff, Node.same_text]
  refine exists_congr fun n => and_congr_right fun _ => ?_
  cases n <;> simp [Node.text?, Node.isName]

theorem texts_eq (h : ∀ s, (ofList ns).contains (.str s) = (ofList ns').contains (.str s)) :
    (ofList ns).members.filterMap Node.text? = (ofList ns').members.filterMap Node.text? := by
  have hnodup : ∀ ns, ((ofList ns).members.filterMap Node.text?).Nodup := by
    intro ns
    refine (texts_sorted ns).imp ?_
    rintro s _ hlt rfl
    rw [Std.ReflOrd.compare_self] at hlt
    cases hlt
  have hperm := (perm_ext_iff_of_nodup (hnodup ns) (hnodup ns')).mpr fun s => by
    rw [mem_texts_iff, mem_texts_iff, h]
  refine List.Perm.eq_of_pairwise ?_ (texts_sorted ns) (texts_sorted ns') hperm
  intro s t _ _ hst hts
  rw [Std.OrientedOrd.eq_swap, hts] at hst
  cases hst

end CwlService.NameSet
