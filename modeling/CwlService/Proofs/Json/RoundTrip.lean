import CwlService.Proofs.Json.Quoted
import CwlService.Proofs.Node.Keys
import Mathlib.Data.List.Forall2

/-! # Written values are read

The text of a value of JSON is in ASCII, and reading it gives the value back. -/
namespace CwlService.Json

open List

/-- The values of JSON: no dates, places or styles, and no number with a fraction. -/
inductive IsJson : Node → Prop where
  | null : IsJson .null
  | bool (b : Bool) : IsJson (.bool b)
  | num (n : Int) : IsJson (.num n)
  | str {s} (hs : Text.isWhole s.toList = true) : IsJson (.str s)
  | list {ns} (hns : ∀ n ∈ ns, IsJson n) : IsJson (.list ns)
  | record {es} (hkeys : (es.map (·.1)).Nodup) (hwhole : ∀ e ∈ es, Text.isWhole e.1.toList = true)
      (hvalues : ∀ e ∈ es, IsJson e.2) :
      IsJson (.record es)

mutual
/-- The whole numbers in a value. -/
def integers : Node → List Int
  | .int n _ => [n]
  | .seq _ items => itemIntegers items
  | .map _ entries => entryIntegers entries
  | _ => []

def itemIntegers : Node.Items → List Int
  | [] => []
  | (_, n) :: rest => integers n ++ itemIntegers rest

def entryIntegers : Node.Entries → List Int
  | [] => []
  | (_, _, n) :: rest => integers n ++ entryIntegers rest
end

/-- Whether a whole number has no more digits than can be written. -/
def IsShort (n : Int) : Prop := n.natAbs < Nat.pow 10 Number.maxDigits

/-- What may follow a value: the end, a comma, or the end of what it stands in. -/
def Closed (cs : List Char) : Prop :=
  cs = [] ∨ ∃ c rest, cs = c :: rest ∧ (c = ',' ∨ c = ']' ∨ c = '\x7d')

/-! ## Numbers -/

theorem magnitude_toDigits (negative : Bool) {n rest}
    (hn : (Nat.toDigits 10 n).length ≤ Number.maxDigits) (hrest : Closed rest) :
    magnitude negative (Nat.toDigits 10 n ++ rest) =
      .ok (.num (if negative then -(n : Int) else n), rest) := by
  have hstop : rest.takeWhile Char.isDigit = [] := by
    obtain rfl | ⟨c, rest, rfl, rfl | rfl | rfl⟩ := hrest <;> rfl
  have hdigits : (Nat.toDigits 10 n ++ rest).takeWhile Char.isDigit = Nat.toDigits 10 n := by
    rw [takeWhile_append_of_pos Number.isDigit_toDigits, hstop, append_nil]
  have hwhole : (if (Nat.toDigits 10 n).head? == some '0' then ['0'] else Nat.toDigits 10 n) =
      Nat.toDigits 10 n := by
    by_cases h : n = 0
    · rw [h]
      rfl
    · exact if_neg (by simpa using Number.head?_toDigits h)
  have hne : (Nat.toDigits 10 n).isEmpty = false := by simp [Nat.toDigits_ne_nil]
  unfold magnitude
  dsimp only
  rw [hdigits, hwhole, hne, drop_left]
  obtain rfl | ⟨c, rest, rfl, rfl | rfl | rfl⟩ := hrest <;>
    simp [part, Nat.not_lt.mpr hn, Number.natural?_toDigits, pure, Except.pure]

/-- Characters in ASCII that are read as a value, wherever one may stand. -/
structure Spells (cs : List Char) (n : Node) : Prop where
  ascii : Text.IsAscii cs
  reads : ∀ fuel rest, 2 * cs.length ≤ fuel → Closed rest → value fuel (cs ++ rest) = .ok (n, rest)

variable {after cs : List Char} {n : Node} {c : Char} {key s : String} {fuel level : Nat}
  {parts : List String} {ns : List Node} {e : String × Node} {es : List (String × Node)}

theorem Spells.of_value (hcs : cs ≠ []) (hascii : Text.IsAscii cs)
    (h : ∀ fuel rest, Closed rest → value (fuel + 1) (cs ++ rest) = .ok (n, rest)) : Spells cs n := by
  refine ⟨hascii, fun fuel rest hfuel hrest => ?_⟩
  have hpos := length_pos_iff.mpr hcs
  obtain ⟨fuel, rfl⟩ := Nat.exists_eq_add_one.mpr (show 0 < fuel by omega)
  exact h fuel rest hrest

/-! ## Words -/

theorem spells_null : Spells "null".toList .null :=
  .of_value (by decide) (by decide) fun _ _ _ => rfl

theorem spells_bool (b : Bool) : Spells (if b then "true" else "false").toList (.bool b) := by
  cases b with
  | false => exact .of_value (by decide) (by decide) fun _ _ _ => rfl
  | true => exact .of_value (by decide) (by decide) fun _ _ _ => rfl

theorem word?_eq_none (h : ∀ w ∈ ["true", "false", "null", "NaN", "Infinity", "-Infinity"], ¬ w.toList <+: cs) :
    word? cs = none := by
  refine findSome?_eq_none_iff.mpr ?_
  rintro ⟨w, n⟩ hw
  have hprefix := h w (mem_map_of_mem (f := (·.1)) hw)
  rw [← isPrefixOf_iff_prefix, Bool.not_eq_true] at hprefix
  simp [afterWord, hprefix]

/-! ## Whole numbers -/

theorem ne_of_isDigit {d} (hc : c.isDigit = true) (hd : d.isDigit = false) : c ≠ d := by
  rintro rfl
  rw [hd] at hc
  cases hc

theorem value_digits (hc : c.isDigit = true) (fuel : Nat) :
    value (fuel + 1) (c :: cs) = magnitude false (c :: cs) ∧
      value (fuel + 1) ('-' :: c :: cs) = magnitude true (c :: cs) := by
  have hne : ∀ d : Char, d.isDigit = false → ¬ c = d := fun d => ne_of_isDigit hc
  have hne' : ∀ d : Char, d.isDigit = false → ¬ d = c := fun d hd => (ne_of_isDigit hc hd).symm
  have hword : word? (c :: cs) = none :=
    word?_eq_none (by simp [cons_prefix_cons, hne'])
  have hsigned : word? ('-' :: c :: cs) = none :=
    word?_eq_none (by simp [cons_prefix_cons, hne'])
  have hnumber : number (c :: cs) = magnitude false (c :: cs) := by
    unfold number
    split
    · next heq => exact absurd (cons.inj heq).1 (hne '-' (by decide))
    · rfl
  have hspace : skipSpace (c :: cs) = c :: cs :=
    dropWhile_cons_of_neg (by simp [isSpace, hne])
  constructor
  · simp only [value, hspace, hword, hnumber]
    simp [hne]
  · simp only [value, skipSpace, dropWhile_cons_of_neg (p := isSpace) (a := '-') (by decide), hsigned]
    rfl

theorem toList_toString (n : Int) : (toString n).toList =
    if n < 0 then '-' :: Nat.toDigits 10 n.natAbs else Nat.toDigits 10 n.natAbs := by
  cases n with
  | ofNat m =>
    have htext : toString (Int.ofNat m) = toString m := rfl
    rw [htext, Nat.toString_eq_ofList_toDigits, String.toList_ofList, if_neg (by simp)]
    rfl
  | negSucc m =>
    have htext : toString (Int.negSucc m) = "-" ++ toString (m + 1) := rfl
    rw [htext, String.toList_append, Nat.toString_eq_ofList_toDigits, if_pos (Int.negSucc_lt_zero m)]
    simp

theorem spells_integer {n} (h : integer? n = some s) : Spells s.toList (.num n) := by
  obtain ⟨hlength, rfl⟩ := Option.ite_some_none_eq_some.mp h
  rw [Nat.toString_eq_ofList_toDigits, String.length_ofList] at hlength
  obtain ⟨c, cs, hcs⟩ := exists_cons_of_ne_nil (Nat.toDigits_ne_nil (n := n.natAbs) (b := 10))
  have hdigit : c.isDigit = true := Number.isDigit_toDigits c (hcs ▸ mem_cons_self)
  have hascii := Number.isAscii_toDigits n.natAbs
  rw [toList_toString]
  by_cases hn : n < 0
  · rw [if_pos hn]
    refine .of_value (by simp) (by simp [hascii]) fun fuel rest hrest => ?_
    have hread := magnitude_toDigits true hlength hrest
    rw [hcs] at hread ⊢
    rw [cons_append, cons_append, (value_digits hdigit fuel).2]
    rw [cons_append, if_pos rfl] at hread
    rw [hread, Int.ofNat_natAbs_of_nonpos (Int.le_of_lt hn), Int.neg_neg]
  · rw [if_neg hn]
    refine .of_value Nat.toDigits_ne_nil hascii fun fuel rest hrest => ?_
    have hread := magnitude_toDigits false hlength hrest
    rw [hcs] at hread ⊢
    rw [cons_append, (value_digits hdigit fuel).1]
    rw [cons_append, if_neg Bool.false_ne_true] at hread
    rw [hread, Int.natAbs_of_nonneg (Int.not_lt.mp hn)]

/-! ## Texts -/

theorem spells_quoted (hs : Text.isWhole s.toList = true) : Spells (quoted s).toList (.str s) := by
  refine ⟨isAscii_quoted s, fun fuel rest hfuel _ => ?_⟩
  have hquoted : (quoted s).toList = '\x22' :: s.toList.flatMap escape ++ ['\x22'] := by
    rw [quoted, String.toList_ofList]
  rw [hquoted] at hfuel ⊢
  simp only [length_append, length_cons, length_nil] at hfuel
  obtain ⟨fuel, rfl⟩ := Nat.exists_eq_add_one.mpr (Nat.zero_lt_of_lt hfuel)
  have hread := string_quoted hs fuel [] rest (by omega)
  simp only [cons_append, append_assoc, nil_append, value, skipSpace]
  simp [isSpace, hread, pure, Except.pure, bind, Except.bind]

/-! ## Parts with commas between them -/

theorem skipSpace_cons (cs : List Char) (hc : isSpace c = false) : skipSpace (c :: cs) = c :: cs :=
  dropWhile_cons_of_neg (by simp [hc])

/-- A loop reads a text in ASCII, with a comma or the end behind it, as one more part. -/
def ReadsPart {α β γ : Type} (loop : Nat → List Char → β → Reading (γ × List Char)) (close : Char) (add : β → α → β)
    (result : β → γ) (a : α) (s : String) : Prop :=
  Text.IsAscii s.toList ∧ ∀ fuel acc rest, 2 * s.length ≤ fuel →
    loop (fuel + 1) (s.toList ++ ',' :: rest) acc = loop fuel rest (add acc a) ∧
      loop (fuel + 1) (s.toList ++ close :: rest) acc = .ok (result (add acc a), rest)

theorem joined_reads {α β γ : Type} {loop : Nat → List Char → β → Reading (γ × List Char)} {close}
    {add : β → α → β} {result : β → γ} {a as}
    (h : Forall₂ (ReadsPart loop close add result) (a :: as) parts) :
    Text.IsAscii (",".intercalate parts).toList ∧ ∀ fuel acc rest,
      2 * ((",".intercalate parts).length + 1) ≤ fuel →
      loop fuel ((",".intercalate parts).toList ++ close :: rest) acc =
        .ok (result ((a :: as).foldl add acc), rest) := by
  induction as generalizing a parts with
  | nil =>
    obtain - | ⟨⟨hascii, hread⟩, _ | _⟩ := h
    rw [String.intercalate_singleton]
    refine ⟨hascii, fun fuel acc rest hfuel => ?_⟩
    obtain ⟨fuel, rfl⟩ := Nat.exists_eq_add_one.mpr (show 0 < fuel by omega)
    exact (hread fuel acc rest (by omega)).2
  | cons b as ih =>
    obtain - | @⟨_, s, _, others, ⟨hascii, hread⟩, hothers⟩ := h
    have hne : others ≠ [] := by
      rintro rfl
      cases hothers
    obtain ⟨hascii', hreads⟩ := ih hothers
    rw [String.intercalate_cons_of_ne_nil hne]
    generalize ",".intercalate others = text at hascii' hreads ⊢
    refine ⟨by simp [hascii, hascii'], fun fuel acc rest hfuel => ?_⟩
    have hcomma : ",".length = 1 := by decide
    rw [String.length_append, String.length_append, hcomma] at hfuel
    obtain ⟨fuel, rfl⟩ := Nat.exists_eq_add_one.mpr (show 0 < fuel by omega)
    have htext : (s ++ "," ++ text).toList ++ close :: rest =
        s.toList ++ ',' :: (text.toList ++ close :: rest) := by simp
    rw [htext, (hread fuel acc _ (by omega)).1, hreads fuel _ rest (by omega)]
    rfl

theorem Spells.enclosed {left right text : String} {l r} (hleft : left.toList = [l])
    (hright : right.toList = [r]) (hends : Text.IsAscii [l, r]) (hascii : Text.IsAscii text.toList)
    (h : ∀ fuel rest, 2 * (text.length + 1) ≤ fuel →
      value (fuel + 1) (l :: (text.toList ++ r :: rest)) = .ok (n, rest)) :
    Spells (left ++ text ++ right).toList n := by
  have htext : (left ++ text ++ right).toList = l :: text.toList ++ [r] := by simp [hleft, hright]
  rw [htext]
  refine ⟨by simp_all, fun fuel rest hfuel _ => ?_⟩
  simp only [cons_append, length_cons, length_append, length_nil, String.length_toList] at hfuel
  obtain ⟨fuel, rfl⟩ := Nat.exists_eq_add_one.mpr (show 0 < fuel by omega)
  rw [cons_append, cons_append, append_assoc]
  exact h fuel rest (by omega)

/-! ## Arrays -/

theorem skipSpace_ne_of_items {acc p} (h : items fuel cs acc = .ok p) :
    skipSpace cs ≠ ']' :: after := by
  intro hclose
  match fuel, h with
  | fuel + 2, h =>
    rw [items, value, hclose] at h
    cases h

theorem forall₂_of_mapM {α : Type} {P : α → String → Prop} {f : α → Option String} {as}
    (h : ∀ a ∈ as, ∀ s, f a = some s → P a s) (hparts : as.mapM f = some parts) : Forall₂ P as parts := by
  induction as generalizing parts with
  | nil =>
    cases hparts
    exact .nil
  | cons a as ih =>
    simp only [mapM_cons, Option.bind_eq_bind, Option.bind_eq_some_iff, Option.pure_def, Option.some.injEq] at hparts
    obtain ⟨s, hs, rest, hrest, rfl⟩ := hparts
    obtain ⟨ha, has⟩ := forall_mem_cons.mp h
    exact .cons (ha s hs) (ih has hrest)

theorem isSome_mapM {α : Type} (f : α → Option String) (as : List α) :
    (as.mapM f).isSome = true ↔ ∀ a ∈ as, (f a).isSome = true := by
  induction as with
  | nil => simp
  | cons a as ih =>
    rw [mapM_cons, forall_mem_cons, ← ih]
    cases f a <;> cases as.mapM f <;> simp

theorem Spells.item (hs : Spells s.toList n) : ReadsPart items ']' (fun acc n => n :: acc) reverse n s := by
  refine ⟨hs.ascii, fun fuel acc rest hfuel => ?_⟩
  have hlength : 2 * s.toList.length ≤ fuel := by rwa [String.length_toList]
  have hcomma := hs.reads fuel (',' :: rest) hlength (.inr ⟨',', rest, rfl, by simp⟩)
  have hclose := hs.reads fuel (']' :: rest) hlength (.inr ⟨']', rest, rfl, by simp⟩)
  constructor
  · simp only [items, hcomma, bind, Except.bind]
    rfl
  · simp only [items, hclose, bind, Except.bind]
    rfl

theorem writeItems?_eq (level : Nat) (ns : List Node) :
    writeItems? .compact level (ns.map fun m => (none, m)) = ns.mapM (write? .compact level) := by
  induction ns with
  | nil => rfl
  | cons n ns ih =>
    rw [map_cons, writeItems?, ih, mapM_cons]
    rfl

theorem write?_list (level n ns) : write? .compact level (.list (n :: ns)) =
      ((n :: ns).mapM (write? .compact (level + 1))).map fun parts => "[" ++ ",".intercalate parts ++ "]" := by
  have hnewline : ∀ level, Layout.compact.newline level = "" := fun _ => rfl
  have hcomma : Layout.compact.comma = "," := rfl
  rw [← writeItems?_eq]
  simp only [Node.list, map_cons, write?, hnewline, hcomma, String.append_empty]
  cases writeItems? .compact (level + 1) ((none, n) :: ns.map fun m => (none, m)) <;> rfl

theorem spells_list (h : ∀ m ∈ ns, ∀ level s, write? .compact level m = some s → Spells s.toList m)
    (hs : write? .compact level (.list ns) = some s) : Spells s.toList (.list ns) := by
  cases ns with
  | nil =>
    cases hs
    exact .of_value (by decide) (by decide) fun _ _ _ => rfl
  | cons n ns =>
    rw [write?_list, Option.map_eq_some_iff] at hs
    obtain ⟨parts, hparts, rfl⟩ := hs
    obtain ⟨hascii, hreads⟩ := joined_reads (forall₂_of_mapM (fun m hm s hs => (h m hm _ s hs).item) hparts)
    refine .enclosed (l := '[') (r := ']') (by simp) (by simp) (by decide) hascii fun fuel rest hfuel => ?_
    have hitems := hreads fuel [] rest hfuel
    rw [value, skipSpace_cons _ (by decide)]
    dsimp only
    rw [if_neg (by decide), if_pos (by decide)]
    split
    · next hclose => exact absurd hclose (skipSpace_ne_of_items hitems)
    · rw [hitems]
      simp [bind, Except.bind, pure, Except.pure]

/-! ## Objects -/

/-- The entry of a field. -/
def entry (e : String × Node) : Node × Option (Place × Place) × Node := (.str e.1, none, e.2)

theorem record_eq (es : List (String × Node)) : Node.record es = .map .plain (es.map entry) := by
  simp [Node.record, Node.dict, entry]

theorem foldl_put {before} (h : ((before ++ es).map (·.1)).Nodup) :
    es.foldl (fun acc e => Node.Entries.put acc (.str e.1) e.2) (before.map entry) = (before ++ es).map entry := by
  induction es generalizing before with
  | nil => rw [append_nil, foldl_nil]
  | cons e es ih =>
    have hnone : ((before.map entry).any fun f => f.1.same (.str e.1)) = false := by
      rw [any_eq_false]
      rintro _ hmem
      obtain ⟨f, hf, rfl⟩ := mem_map.mp hmem
      rw [map_append, map_cons, nodup_append] at h
      have hne := h.2.2 _ (mem_map_of_mem hf) _ mem_cons_self
      simp [entry, Node.isName, hne]
    have hput : Node.Entries.put (before.map entry) (.str e.1) e.2 = (before ++ [e]).map entry := by
      rw [Node.Entries.put, hnone, if_neg Bool.false_ne_true, map_append]
      rfl
    rw [foldl_cons, hput, ih (by simpa using h), append_assoc, singleton_append]

theorem Spells.member (hkey : Text.isWhole key.toList = true) (hs : Spells s.toList n) :
    ReadsPart members '\x7d' (fun acc (e : String × Node) => acc.put (.str e.1) e.2) id (key, n)
      (quoted key ++ ":" ++ s) := by
  refine ⟨by simp [isAscii_quoted, hs.ascii], fun fuel acc rest hfuel => ?_⟩
  have htext : ∀ more, (quoted key ++ ":" ++ s).toList ++ more =
      '\x22' :: (key.toList.flatMap escape ++ '\x22' :: ':' :: (s.toList ++ more)) := by
    simp [quoted]
  have hlength : (quoted key ++ ":" ++ s).length = (key.toList.flatMap escape).length + 3 + s.length := by
    have h := congrArg length (htext [])
    simp only [append_nil, length_cons, length_append, String.length_toList] at h
    omega
  have hmember : ∀ c after, c = ',' ∨ c = '\x7d' →
    members (fuel + 1) ((quoted key ++ ":" ++ s).toList ++ c :: after) acc =
      if c = ',' then members fuel after (acc.put (.str key) n) else .ok (acc.put (.str key) n, after) := by
    intro c after hc
    have hname : string fuel (key.toList.flatMap escape ++ '\x22' :: ':' :: (s.toList ++ c :: after)) [] =
        .ok (key, ':' :: (s.toList ++ c :: after)) := by
      rw [string_quoted hkey fuel [] _ (by omega)]
      simp
    have hvalue := hs.reads fuel (c :: after) (by rw [String.length_toList]; omega)
      (.inr ⟨c, after, rfl, hc.imp id .inr⟩)
    rw [htext, members, skipSpace_cons _ (by decide)]
    simp only [hname, bind, Except.bind]
    rw [skipSpace_cons _ (by decide)]
    simp only [hvalue]
    rcases hc with rfl | rfl <;> rfl
  exact ⟨hmember ',' rest (.inl rfl), hmember '\x7d' rest (.inr rfl)⟩

theorem skipSpace_ne_of_members {acc p} (h : members fuel cs acc = .ok p) : skipSpace cs ≠ '\x7d' :: after := by
  intro hclose
  cases fuel with
  | zero => cases h
  | succ fuel =>
    rw [members, hclose] at h
    cases h

theorem writeEntries?_eq (level) (es : List (String × Node)) : writeEntries? .compact level (es.map entry) =
    es.mapM fun e => (write? .compact level e.2).map (quoted e.1 ++ ":" ++ ·) := by
  induction es with
  | nil => rfl
  | cons e es ih =>
    rw [map_cons, entry, writeEntries?, ih, mapM_cons]
    cases write? .compact level e.2 <;> rfl

theorem write?_record (level) (e : String × Node) (es) :
    write? .compact level (.record (e :: es)) =
      ((e :: es).mapM fun e => (write? .compact (level + 1) e.2).map (quoted e.1 ++ ":" ++ ·)).map fun parts =>
        "\x7b" ++ ",".intercalate parts ++ "\x7d" := by
  have hnewline : ∀ level, Layout.compact.newline level = "" := fun _ => rfl
  have hcomma : Layout.compact.comma = "," := rfl
  rw [← writeEntries?_eq]
  simp only [record_eq, map_cons, write?, hnewline, hcomma, String.append_empty]
  cases writeEntries? .compact (level + 1) (entry e :: es.map entry) <;> rfl

theorem spells_record (hkeys : (es.map (·.1)).Nodup)
    (h : ∀ f ∈ es, Text.isWhole f.1.toList = true ∧ ∀ level s, write? .compact level f.2 = some s → Spells s.toList f.2)
    (hs : write? .compact level (.record es) = some s) : Spells s.toList (.record es) := by
  cases es with
  | nil =>
    cases hs
    exact .of_value (by decide) (by decide) fun _ _ _ => rfl
  | cons e es =>
    rw [write?_record, Option.map_eq_some_iff] at hs
    obtain ⟨parts, hparts, rfl⟩ := hs
    obtain ⟨hascii, hreads⟩ := joined_reads (forall₂_of_mapM (fun f hf _ htext => by
      obtain ⟨s, hs, rfl⟩ := Option.map_eq_some_iff.mp htext
      exact ((h f hf).2 _ s hs).member (h f hf).1) hparts)
    refine .enclosed (l := '\x7b') (r := '\x7d') (by simp) (by simp) (by decide) hascii fun fuel rest hfuel => ?_
    have hmembers := hreads fuel [] rest hfuel
    rw [value, skipSpace_cons _ (by decide)]
    dsimp only
    rw [if_neg (by decide), if_neg (by decide), if_pos (by decide), record_eq]
    split
    · next hclose => exact absurd hclose (skipSpace_ne_of_members hmembers)
    · rw [hmembers, show [] = ([] : List (String × Node)).map entry from rfl, foldl_put hkeys]
      rfl

/-! ## All values -/

/-- The text of a value of JSON is in ASCII and read as the value. -/
theorem IsJson.spells (h : IsJson n) : ∀ level s, write? .compact level n = some s → Spells s.toList n := by
  induction h with
  | null =>
    rintro level s ⟨⟩
    exact spells_null
  | bool b =>
    rintro level s ⟨⟩
    exact spells_bool b
  | num n => exact fun level s hs => spells_integer hs
  | str hs =>
    rintro level s ⟨⟩
    exact spells_quoted hs
  | list _ ih => exact fun level s hs => spells_list ih hs
  | record hkeys hwhole _ ih =>
    exact fun level s hs => spells_record hkeys (fun f hf => ⟨hwhole f hf, ih f hf⟩) hs

theorem IsJson.read_text? (h : IsJson n) (hs : text? n = some s) : read s = .ok n := by
  have hreads := (h.spells 0 s hs).reads (2 * s.toList.length + 2) [] (by omega) (.inl rfl)
  rw [append_nil] at hreads
  simp only [read, hreads, bind, Except.bind]
  rfl

/-! ## Which values have a text -/

theorem isSome_integer? (n : Int) : (integer? n).isSome = true ↔ IsShort n := by
  have hlength := Nat.length_toDigits_le_iff (n := n.natAbs) (b := 10) (k := Number.maxDigits)
    (by decide) (by decide)
  rw [IsShort, Nat.pow_eq, ← hlength, integer?, Nat.toString_eq_ofList_toDigits, String.length_ofList]
  split
  · next h => simp [h]
  · next h => simp [h]

theorem itemIntegers_eq (items) : itemIntegers items = items.flatMap fun i => integers i.2 := by
  induction items with
  | nil => rfl
  | cons i items ih => rw [itemIntegers, ih, flatMap_cons]

theorem entryIntegers_eq (es) : entryIntegers es = es.flatMap fun e => integers e.2.2 := by
  induction es with
  | nil => rfl
  | cons e es ih => rw [entryIntegers, ih, flatMap_cons]

/-- A value of JSON has a text exactly if no whole number in it is too long. -/
theorem IsJson.isSome_write? (h : IsJson n) : ∀ level, (write? .compact level n).isSome = true ↔
      ∀ k ∈ integers n, IsShort k := by
  induction h with
  | null => simp [write?, integers]
  | bool b => simp [write?, integers]
  | num n => simpa [write?, integers] using isSome_integer? n
  | str _ => simp [write?, integers]
  | @list ns _ ih =>
    intro level
    cases ns with
    | nil => simp [write?, Node.list, integers, itemIntegers]
    | cons n ns =>
      rw [write?_list, Option.isSome_map, isSome_mapM, Node.list, integers, itemIntegers_eq,
        flatMap_map, forall_mem_flatMap]
      exact forall₂_congr fun m hm => ih m hm (level + 1)
  | @record es _ _ _ ih =>
    intro level
    cases es with
    | nil => simp [write?, Node.record, Node.dict, integers, entryIntegers]
    | cons e es =>
      rw [write?_record, Option.isSome_map, isSome_mapM, record_eq, integers, entryIntegers_eq,
        flatMap_map, forall_mem_flatMap]
      refine forall₂_congr fun f hf => ?_
      rw [Option.isSome_map]
      exact ih f hf (level + 1)

end CwlService.Json
