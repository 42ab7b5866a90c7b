import CwlService.Proofs.Expression.Fragments
import Mathlib.Data.List.Forall2

/-! # Texts that are put together from their parts

Plain parts and expressions in turn make a text, and the text is cut into parts again. An
expression is read up to its last closing bracket before the next one opens, whether or not the
brackets in its body are in pairs. So the parts come back exactly if no expression is followed by
plain text that has its closing bracket; if one is, its body takes the plain text up to there. -/
namespace CwlService.Expression

open List

/-- An expression and the plain text behind it. No expression begins in either. -/
structure Piece where
  kind : FragmentKind
  body : List Char
  after : List Char
  isExpression : kind ≠ .plain
  bodyFree : OpenerFree body
  afterFree : OpenerFree after

/-- Plain text and expressions in turn. -/
structure Mixture where
  first : List Char
  pieces : List Piece
  firstFree : OpenerFree first

variable (pieces : List Piece) (kind : FragmentKind)

/-- Pieces as they are written. -/
def written : List Char :=
  pieces.flatMap fun p => bracketed p.kind p.body ++ p.after

/-- The text that a mixture makes. -/
def Mixture.text (m : Mixture) : String := String.ofList (m.first ++ written m.pieces)

/-- The parts in turn: their kinds, and their texts without brackets. -/
def turns (first : List Char) (pieces : List Piece) : List (FragmentKind × List Char) :=
  (.plain, first) :: pieces.flatMap fun p => [(p.kind, p.body), (.plain, p.after)]

def Fragment.part (f : Fragment) : FragmentKind × List Char := (f.kind, f.text.toList)

/-- How a piece is read: the same characters, and its last closing bracket ends the body. -/
structure Piece.ReadAs (p q : Piece) : Prop where
  kind : q.kind = p.kind
  same : q.body ++ closing p.kind :: q.after = p.body ++ closing p.kind :: p.after
  last : closing p.kind ∉ q.after

/-! ## No expression begins in plain text -/

/-- What follows plain text: nothing, or the `$` of an expression. -/
def Follows (cs : List Char) : Prop := ∀ c ∈ cs.head?, c = '$'

theorem follows_written : Follows (written pieces) := by
  cases pieces with
  | nil => simp [Follows, written]
  | cons p rest =>
    have hkind := p.isExpression
    cases h : p.kind with
    | plain => exact absurd h hkind
    | reference => simp [Follows, written, bracketed, opener, h]
    | script => simp [Follows, written, bracketed, opener, h]

theorem body?_of_openerFree {c cs rest} (hfree : OpenerFree (c :: cs)) (hrest : Follows rest) :
    body? (c :: cs ++ rest) = none := by
  by_contra hsome
  obtain ⟨⟨kind, body⟩, hbody⟩ := Option.ne_none_iff_exists'.mp hsome
  have hstands := stands_of_body? hbody
  obtain ⟨tail, htail⟩ := opener_prefix_of_stands hstands
  obtain ⟨hcs, hdollar⟩ := openerFree_cons.mp hfree
  -- an opening would need a bracket behind a `$`
  have hnext : c = '$' ∧ ∃ d ∈ (cs ++ rest).head?, IsBracket d := by
    cases kind with
    | plain => exact absurd rfl hstands.1
    | reference =>
      obtain ⟨hc, hnext⟩ := cons.inj htail
      exact ⟨hc.symm, '(', congrArg head? hnext.symm, .inl rfl⟩
    | script =>
      obtain ⟨hc, hnext⟩ := cons.inj htail
      exact ⟨hc.symm, '\x7b', congrArg head? hnext.symm, .inr rfl⟩
  obtain ⟨rfl, d, hd, hbracket⟩ := hnext
  cases cs with
  | nil =>
    have hfollows : d = '$' := hrest d hd
    subst hfollows
    exact absurd hbracket (by simp [IsBracket])
  | cons e cs => exact hdollar rfl d hd hbracket

theorem plainUpTo_of_openerFree {cs rest} (hfree : OpenerFree cs) (hrest : Follows rest) :
    PlainUpTo cs.length (cs ++ rest) := by
  intro n hn
  rw [drop_append_of_le_length (Nat.le_of_lt hn), drop_eq_getElem_cons hn]
  refine body?_of_openerFree ?_ hrest
  rw [← drop_eq_getElem_cons hn]
  exact hfree.part (drop_suffix n cs).isInfix

/-! ## Where the body of a piece ends -/

theorem closing_not_dollar : closing kind ≠ '$' := by
  cases kind <;> decide

theorem closing_not_bracket : ¬ IsBracket (closing kind) := by
  cases kind <;> simp [closing, IsBracket]

/-- A closing bracket keeps what is before it and what is behind it apart. -/
theorem OpenerFree.append_closing {before behind} (hbefore : OpenerFree before)
    (hbehind : OpenerFree behind) : OpenerFree (before ++ closing kind :: behind) := by
  induction before with
  | nil => exact openerFree_cons.mpr ⟨hbehind, fun h => absurd h (closing_not_dollar kind)⟩
  | cons c cs ih =>
    obtain ⟨hcs, hc⟩ := openerFree_cons.mp hbefore
    refine openerFree_cons.mpr ⟨ih hcs, fun hdollar d hd => ?_⟩
    cases cs with
    | nil =>
      obtain rfl : closing kind = d := by simpa using hd
      exact closing_not_bracket kind
    | cons e cs => exact hc hdollar d (by simpa using hd)

theorem stretch_piece (p : Piece) (rest : List Piece) :
    ∃ tail, stretch false (p.body ++ closing p.kind :: p.after ++ written rest) =
      p.body ++ closing p.kind :: (p.after ++ tail) ∧ closing p.kind ∉ tail := by
  obtain ⟨dollar, hstretch⟩ := stretch_append false (written rest)
    (p.bodyFree.append_closing p.kind p.afterFree) (by simp)
  rw [hstretch]
  cases rest with
  | nil => exact ⟨[], by simp [written, stretch], by simp⟩
  | cons q rest =>
    refine ⟨['$'], ?_, by simpa using closing_not_dollar p.kind⟩
    have hkind := q.isExpression
    cases h : q.kind with
    | plain => exact absurd h hkind
    | reference => simp [written, bracketed, opener, h, stretch]
    | script => simp [written, bracketed, opener, h, stretch]

theorem Piece.exists_readAs (p : Piece) : ∃ q, p.ReadAs q := by
  obtain ⟨longer, behind, hsame, hlast, _⟩ := exists_last (closing p.kind) p.body p.after
  have hfree : OpenerFree (longer ++ closing p.kind :: behind) :=
    hsame ▸ p.bodyFree.append_closing p.kind p.afterFree
  refine ⟨⟨p.kind, longer, behind, p.isExpression, ?_, ?_⟩, rfl, hsame.symm, hlast⟩
  · exact hfree.part (prefix_append _ _).isInfix
  · exact hfree.part ((suffix_cons _ _).trans (suffix_append _ _)).isInfix

theorem Piece.ReadAs.eq {p q : Piece} (h : p.ReadAs q) (hp : closing p.kind ∉ p.after) : q = p := by
  obtain ⟨kind, body, after, _, _, _⟩ := p
  obtain ⟨kind', body', after', _, _, _⟩ := q
  obtain ⟨rfl, hsame, hlast⟩ := h
  have hbody : some body' = some body := by
    rw [← beforeLast?_append body' hlast, hsame, beforeLast?_append body hp]
  cases hbody
  cases append_cancel_left hsame
  rfl

theorem Piece.ReadAs.body? {p q : Piece} (h : p.ReadAs q) (rest : List Piece) :
    body? (bracketed q.kind q.body ++ (q.after ++ written rest)) = some (q.kind, q.body) := by
  obtain ⟨tail, hstretch, htail⟩ := stretch_piece q rest
  have hopen : opening? (bracketed q.kind q.body ++ (q.after ++ written rest)) =
      some (q.kind, q.body ++ closing q.kind :: q.after ++ written rest) :=
    opening?_eq_some_iff.mpr ⟨q.isExpression, by simp [bracketed]⟩
  have hlast : beforeLast? (closing q.kind) (q.body ++ closing q.kind :: (q.after ++ tail)) =
      some q.body := by
    refine beforeLast?_append q.body ?_
    rw [h.kind, mem_append, not_or]
    exact ⟨h.last, h.kind ▸ htail⟩
  simp only [Expression.body?, hopen, Option.bind_eq_bind, Option.bind_some, hstretch, hlast, Option.pure_def]

/-! ## Texts -/

theorem partsFrom_written {pieces read} (h : Forall₂ Piece.ReadAs pieces read) (front : List Char)
    {first} (hfirst : OpenerFree first) :
    (partsFrom front (first ++ written pieces)).map Fragment.part = turns first read := by
  have hplain := plainUpTo_of_openerFree hfirst (follows_written pieces)
  induction h generalizing front first with
  | nil =>
    rw [written, flatMap_nil, append_nil] at hplain ⊢
    rw [partsFrom_plain front hplain]
    simp [turns, Fragment.part]
  | @cons p q pieces read hread _ ih =>
    have htext : written (p :: pieces) = bracketed q.kind q.body ++ (q.after ++ written pieces) := by
      calc written (p :: pieces)
          = opener p.kind ++ (p.body ++ closing p.kind :: p.after) ++ written pieces := by
            simp [written, bracketed]
        _ = opener p.kind ++ (q.body ++ closing p.kind :: q.after) ++ written pieces := by
            rw [hread.same]
        _ = bracketed q.kind q.body ++ (q.after ++ written pieces) := by
            simp [bracketed, hread.kind]
    rw [htext] at hplain ⊢
    rw [partsFrom_found front hplain (hread.body? pieces), map_cons, map_cons,
      ih _ q.afterFree (plainUpTo_of_openerFree q.afterFree (follows_written pieces))]
    simp [turns, Fragment.part]

theorem fragments_text (m : Mixture) {read} (h : Forall₂ Piece.ReadAs m.pieces read) :
    (fragments m.text).map Fragment.part = turns m.first read := by
  have hparts := partsFrom_written h [] m.firstFree
  rwa [← String.toList_ofList (l := m.first ++ written m.pieces)] at hparts

theorem turns_injective {first pieces pieces'} (h : turns first pieces = turns first pieces') : pieces = pieces' := by
  unfold turns at h
  replace h := (cons.inj h).2
  induction pieces generalizing pieces' with
  | nil =>
    cases pieces' with
    | nil => rfl
    | cons q rest => simp at h
  | cons p rest ih =>
    cases pieces' with
    | nil => simp at h
    | cons q rest' =>
      obtain ⟨kind, body, after, _, _, _⟩ := p
      obtain ⟨kind', body', after', _, _, _⟩ := q
      simp only [flatMap_cons, cons_append, nil_append, cons.injEq, Prod.mk.injEq, true_and] at h
      obtain ⟨⟨rfl, rfl⟩, rfl, hrest⟩ := h
      rw [ih hrest]

theorem exists_read : ∀ pieces : List Piece, ∃ read, Forall₂ Piece.ReadAs pieces read
  | [] => ⟨[], .nil⟩
  | p :: rest => by
    obtain ⟨q, hq⟩ := p.exists_readAs
    obtain ⟨read, hread⟩ := exists_read rest
    exact ⟨q :: read, .cons hq hread⟩

theorem read_eq_iff {pieces read} (h : Forall₂ Piece.ReadAs pieces read) :
    read = pieces ↔ ∀ p ∈ pieces, closing p.kind ∉ p.after := by
  induction h with
  | nil => simp
  | @cons p q pieces read hq _ ih =>
    rw [cons.injEq, forall_mem_cons, ih]
    refine and_congr_left fun _ => ⟨?_, hq.eq⟩
    rintro rfl
    exact hq.last

/-- The parts of a text that is put together from plain text and expressions are these plain parts
and expressions, each expression up to its last closing bracket before the next one. They are the
ones that it was put together from exactly if none is followed by plain text with its closing
bracket. -/
theorem fragments_joined (m : Mixture) :
    (∃ read, List.Forall₂ Piece.ReadAs m.pieces read ∧
      (fragments m.text).map Fragment.part = turns m.first read) ∧
    ((fragments m.text).map Fragment.part = turns m.first m.pieces ↔
      ∀ p ∈ m.pieces, closing p.kind ∉ p.after) := by
  obtain ⟨read, hread⟩ := exists_read m.pieces
  have hparts := fragments_text m hread
  refine ⟨⟨read, hread, hparts⟩, ?_⟩
  rw [hparts, ← read_eq_iff hread]
  exact ⟨turns_injective, fun h => by rw [h]⟩

/-! ## Brackets in pairs -/

/-- Whether the brackets of a kind open and close in pairs, if so many are open. -/
def balancedFrom (kind : FragmentKind) : Nat → List Char → Bool
  | depth, [] => depth == 0
  | depth, c :: rest =>
    if some c = (opener kind).getLast? then balancedFrom kind (depth + 1) rest
    else if c = closing kind then 0 < depth && balancedFrom kind (depth - 1) rest
    else balancedFrom kind depth rest

/-- A reference with a remark behind it, whose bracket closes nothing. -/
def remarked : Mixture where
  first := []
  pieces := [⟨.reference, ['a'], [' ', 'b', ')'], by decide,
    by simp [openerFree_cons, OpenerFree.nil], by simp [openerFree_cons, OpenerFree.nil]⟩]
  firstFree := .nil

/-- Not all parts come back, although the brackets in bodies are in pairs. -/
theorem remarked_not_joined : ¬ ∀ m : Mixture,
    (∀ p ∈ m.pieces, balancedFrom p.kind 0 p.body = true) →
      (fragments m.text).map Fragment.part = turns m.first m.pieces := by
  intro h
  have hparts := h remarked (by simp [remarked, balancedFrom, opener, closing])
  obtain ⟨read, hread⟩ := exists_read remarked.pieces
  rw [fragments_text remarked hread] at hparts
  have hbehind := (read_eq_iff hread).mp (turns_injective hparts)
  simp [remarked, closing] at hbehind

end CwlService.Expression
