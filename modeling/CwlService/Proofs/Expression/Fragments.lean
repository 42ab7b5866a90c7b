import CwlService.Expression.Fragments

/-! # Nothing of a text is lost in its parts

The fragments of a text put together are the text. Plain parts and expressions take turns,
each begins where the one before it ends, and an expression is what its span holds, with
no other inside. None is missed: wherever a bracketed body without another opening
stands, one of the fragments begins, and it is the longest that does. -/
namespace CwlService.Expression

open List

/-- The characters before a body. -/
def opener : FragmentKind → List Char
  | .plain => []
  | .reference => ['$', '(']
  | .script => ['$', '\x7b']

/-- No body begins in these characters. -/
def OpenerFree (cs : List Char) : Prop := ∀ kind, kind ≠ .plain → ¬ opener kind <:+: cs

/-- A body with its brackets. -/
def bracketed (kind : FragmentKind) (body : List Char) : List Char :=
  opener kind ++ body ++ [closing kind]

/-- A fragment as it is written. -/
def Fragment.written (f : Fragment) : List Char :=
  if f.kind = .plain then f.text.toList else bracketed f.kind f.text.toList

/-- A bracketed body is at the front of a text, and no other begins inside it. -/
def Stands (kind : FragmentKind) (body cs : List Char) : Prop :=
  kind ≠ .plain ∧ OpenerFree body ∧ bracketed kind body <+: cs

/-! ## Where a body ends -/

theorem OpenerFree.nil : OpenerFree [] := by
  rintro (_ | _ | _) hkind <;> simp_all [opener]

theorem OpenerFree.part {as bs} (h : OpenerFree bs) (has : as <:+: bs) : OpenerFree as :=
  fun kind hkind hin => h kind hkind (hin.trans has)

/-- A character after `$` that opens a body. -/
def IsBracket (c : Char) : Prop := c = '(' ∨ c = '\x7b'

variable {c : Char} {cs : List Char}

theorem openerFree_cons :
    OpenerFree (c :: cs) ↔ OpenerFree cs ∧ (c = '$' → ∀ d ∈ cs.head?, ¬ IsBracket d) := by
  simp only [OpenerFree, infix_cons_iff, not_or]
  constructor
  · intro h
    refine ⟨fun kind hkind => (h kind hkind).2, ?_⟩
    rintro rfl d hd (rfl | rfl)
    · obtain ⟨rest, rfl⟩ := head?_eq_some_iff.mp hd
      exact (h .reference (by decide)).1 ⟨rest, rfl⟩
    · obtain ⟨rest, rfl⟩ := head?_eq_some_iff.mp hd
      exact (h .script (by decide)).1 ⟨rest, rfl⟩
  · rintro ⟨hcs, hc⟩ kind hkind
    refine ⟨?_, hcs kind hkind⟩
    rintro ⟨rest, hrest⟩
    cases kind with
    | plain => exact hkind rfl
    | reference =>
      cases hrest
      exact hc rfl '(' rfl (.inl rfl)
    | script =>
      cases hrest
      exact hc rfl '\x7b' rfl (.inr rfl)

theorem OpenerFree.concat (h : OpenerFree cs) (hc : ¬ IsBracket c) : OpenerFree (cs ++ [c]) := by
  induction cs with
  | nil => exact openerFree_cons.mpr ⟨.nil, by simp⟩
  | cons d cs ih =>
    obtain ⟨hcs, hd⟩ := openerFree_cons.mp h
    refine openerFree_cons.mpr ⟨ih hcs, fun hdollar e he => ?_⟩
    cases cs with
    | nil =>
      obtain rfl : c = e := by simpa using he
      exact hc
    | cons f cs => exact hd hdollar e (by simpa using he)

theorem stretch_isPrefix (dollar : Bool) (cs : List Char) : stretch dollar cs <+: cs := by
  fun_induction stretch dollar cs with
  | case1 => exact prefix_rfl
  | case2 => exact nil_prefix
  | case3 dollar c rest hc ih => exact prefix_cons_inj c |>.mpr ih

/-- After a `$` the stretch does not begin with a bracket. -/
theorem head_stretch_true (cs : List Char) : ∀ d ∈ (stretch true cs).head?, ¬ IsBracket d := by
  intro d hd
  cases cs with
  | nil => simp [stretch] at hd
  | cons c rest =>
    simp only [stretch, Bool.true_and] at hd
    split at hd
    · simp at hd
    · rename_i hc
      simp only [head?_cons, Option.mem_some_iff] at hd
      simpa [IsBracket, ← hd] using hc

theorem stretch_openerFree (dollar : Bool) (cs : List Char) : OpenerFree (stretch dollar cs) := by
  fun_induction stretch dollar cs with
  | case1 => exact .nil
  | case2 => exact .nil
  | case3 dollar c rest hc ih =>
    refine openerFree_cons.mpr ⟨ih, ?_⟩
    rintro rfl
    exact head_stretch_true rest

theorem stretch_append (dollar : Bool) (rest : List Char) (hfree : OpenerFree cs)
    (hfirst : dollar = true → ∀ d ∈ cs.head?, ¬ IsBracket d) :
    ∃ dollar', stretch dollar (cs ++ rest) = cs ++ stretch dollar' rest := by
  induction cs generalizing dollar with
  | nil => exact ⟨dollar, rfl⟩
  | cons c cs ih =>
    obtain ⟨hcs, hc⟩ := openerFree_cons.mp hfree
    obtain ⟨dollar', hrest⟩ := ih (c == '$') hcs (by simpa using hc)
    refine ⟨dollar', ?_⟩
    have hgoes : (dollar && (c == '(' || c == '\x7b')) = false := by
      cases dollar with
      | false => rfl
      | true => simpa [IsBracket] using hfirst rfl c rfl
    simp [stretch, hgoes, hrest]

theorem beforeLast?_append (before : List Char) {after} (h : c ∉ after) :
    beforeLast? c (before ++ c :: after) = some before := by
  have hskip : ∀ d ∈ after.reverse, (d != c) = true := by
    intro d hd
    simpa using fun heq : d = c => h (heq ▸ mem_reverse.mp hd)
  have hrest : (before ++ c :: after).reverse.dropWhile (· != c) = c :: before.reverse := by
    simp [dropWhile_append_of_pos hskip]
  rw [beforeLast?, hrest]
  simp

theorem exists_last (c) (before after : List Char) :
    ∃ longer behind, before ++ c :: after = longer ++ c :: behind ∧ c ∉ behind ∧ before <+: longer := by
  by_cases hmem : c ∈ after
  · obtain ⟨behind, between, hrev, hbehind⟩ :=
      eq_append_cons_of_mem (mem_reverse.mpr hmem)
    have hafter : after = between.reverse ++ c :: behind.reverse := by
      simpa using congrArg reverse hrev
    refine ⟨before ++ c :: between.reverse, behind.reverse, ?_, ?_, prefix_append _ _⟩
    · simp [hafter]
    · simpa using hbehind
  · exact ⟨before, after, rfl, hmem, prefix_rfl⟩

theorem beforeLast?_of_cut (c before after) :
    ∃ longer, beforeLast? c (before ++ c :: after) = some longer ∧ before.length ≤ longer.length := by
  obtain ⟨longer, behind, hsame, hbehind, hbefore⟩ := exists_last c before after
  rw [hsame]
  exact ⟨longer, beforeLast?_append longer hbehind, hbefore.length_le⟩

theorem prefix_of_beforeLast? {cs before} (h : beforeLast? c cs = some before) : before ++ [c] <+: cs := by
  unfold beforeLast? at h
  split at h
  · cases h
  · rename_i d kept hrest
    cases h
    have hd : d = c := by
      have := head?_dropWhile_not (· != c) cs.reverse
      simpa [hrest] using this
    have hcut := takeWhile_append_dropWhile (p := (· != c)) (l := cs.reverse)
    refine ⟨(cs.reverse.takeWhile (· != c)).reverse, ?_⟩
    rw [hrest, hd] at hcut
    simpa using congrArg reverse hcut

/-! ## Bodies -/

variable {kind : FragmentKind}

/-- The body of an expression at the front of a text, whatever its kind. -/
def body? (cs : List Char) : Option (FragmentKind × List Char) := do
  let (kind, rest) ← opening? cs
  let body ← beforeLast? (closing kind) (stretch false rest)
  pure (kind, body)

theorem bodyOf?_eq_some_iff {cs body} : bodyOf? kind cs = some body ↔ body? cs = some (kind, body) := by
  simp only [bodyOf?, body?, Option.bind_eq_bind, Option.bind_eq_some_iff, Option.pure_def]
  grind

theorem opening?_eq_some_iff {cs rest} :
    opening? cs = some (kind, rest) ↔ kind ≠ .plain ∧ cs = opener kind ++ rest := by
  constructor
  · intro h
    unfold opening? at h
    split at h
    · cases h; exact ⟨by decide, rfl⟩
    · cases h; exact ⟨by decide, rfl⟩
    · cases h
  · rintro ⟨hkind, rfl⟩
    cases kind with
    | plain => exact absurd rfl hkind
    | reference => rfl
    | script => rfl

theorem stands_of_body? {cs body} (h : body? cs = some (kind, body)) : Stands kind body cs := by
  simp only [body?, Option.bind_eq_bind, Option.bind_eq_some_iff, Option.pure_def] at h
  obtain ⟨⟨found, rest⟩, hopen, inside, hbody, heq⟩ := h
  cases heq
  obtain ⟨hkind, rfl⟩ := opening?_eq_some_iff.mp hopen
  have hin : body ++ [closing found] <+: stretch false rest := prefix_of_beforeLast? hbody
  refine ⟨hkind, ?_, ?_⟩
  · exact (stretch_openerFree false rest).part ((prefix_append _ _).trans hin).isInfix
  · rw [bracketed, append_assoc]
    exact (prefix_append_right_inj _).mpr (hin.trans (stretch_isPrefix false rest))

theorem Stands.body? {cs body} (h : Stands kind body cs) :
    ∃ longer, body? cs = some (kind, longer) ∧ body.length ≤ longer.length := by
  obtain ⟨hkind, hfree, after, rfl⟩ := h
  obtain ⟨dollar, hstretch⟩ :=
    stretch_append false (closing kind :: after) hfree (by simp)
  have hgoes : (dollar && (closing kind == '(' || closing kind == '\x7b')) = false := by
    cases kind <;> cases dollar <;> rfl
  rw [stretch, hgoes] at hstretch
  obtain ⟨longer, hlast, hle⟩ :=
    beforeLast?_of_cut (closing kind) body (stretch (closing kind == '$') after)
  refine ⟨longer, ?_, hle⟩
  have hopen : opening? (bracketed kind body ++ after) =
      some (kind, body ++ closing kind :: after) :=
    opening?_eq_some_iff.mpr ⟨hkind, by simp [bracketed]⟩
  simp only [Expression.body?, hopen]
  simp_all

theorem length_opener (h : kind ≠ .plain) : (opener kind).length = 2 := by
  cases kind with
  | plain => exact absurd rfl h
  | reference => rfl
  | script => rfl

theorem length_bracketed (body : List Char) (h : kind ≠ .plain) :
    (bracketed kind body).length = body.length + 3 := by
  simp [bracketed, length_opener h]
  omega

theorem openerFree_tail_bracketed {body} (hkind : kind ≠ .plain) (hfree : OpenerFree body) :
    OpenerFree (bracketed kind body).tail := by
  have hbody : OpenerFree (body ++ [closing kind]) :=
    hfree.concat (by cases kind <;> simp [IsBracket, closing])
  cases kind with
  | plain => exact absurd rfl hkind
  | reference => exact openerFree_cons.mpr ⟨hbody, by simp⟩
  | script => exact openerFree_cons.mpr ⟨hbody, by simp⟩

theorem opener_prefix_of_stands {body cs} (h : Stands kind body cs) : opener kind <+: cs :=
  ((prefix_append _ _).trans (prefix_append _ _)).trans h.2.2

theorem not_stands_inside {kind other body inside after n} (hkind : kind ≠ .plain)
    (hfree : OpenerFree body) (hpos : 0 < n) (hn : n < body.length + 3) :
    ¬ Stands other inside ((bracketed kind body ++ after).drop n) := by
  intro h
  have hcount := length_bracketed body hkind
  have hopener := length_opener h.1
  have hfront := opener_prefix_of_stands h
  rw [drop_append_of_le_length (by omega)] at hfront
  by_cases hlast : n = body.length + 2
  · -- only the closing bracket is left of the first one
    have hdrop : (bracketed kind body).drop n = [closing kind] := by
      rw [bracketed, drop_left']
      simp [length_opener hkind]; omega
    rw [hdrop] at hfront
    obtain ⟨rest, hrest⟩ := hfront
    cases other with
    | plain => exact h.1 rfl
    | reference => cases kind <;> simp [opener, closing] at hrest
    | script => cases kind <;> simp [opener, closing] at hrest
  · have hin : opener other <+: (bracketed kind body).drop n := by
      refine prefix_of_prefix_length_le hfront (prefix_append _ _) ?_
      rw [length_drop]
      omega
    have hsuffix : (bracketed kind body).drop n <:+ (bracketed kind body).tail := by
      obtain ⟨m, rfl⟩ := Nat.exists_eq_add_of_lt hpos
      rw [Nat.zero_add, ← drop_one, Nat.add_comm, ← drop_drop]
      exact drop_suffix m _
    exact openerFree_tail_bracketed hkind hfree other h.1 (hin.isInfix.trans hsuffix.isInfix)

/-! ## Two searches -/

theorem scan_skip (place : Nat) {skip} (h : skip ≤ cs.length) :
    scan kind place skip cs = scan kind (place + skip) 0 (cs.drop skip) := by
  induction skip generalizing place cs with
  | zero => rfl
  | succ skip ih =>
    cases cs with
    | nil => cases h
    | cons c rest => rw [scan, ih _ (Nat.le_of_succ_le_succ h), drop_succ_cons, Nat.add_right_comm, Nat.add_assoc]

theorem scan_pass (place count : Nat) (h : ∀ n < count, bodyOf? kind (cs.drop n) = none) :
    scan kind place 0 cs = scan kind place count cs := by
  induction count generalizing place cs with
  | zero => rfl
  | succ count ih =>
    cases cs with
    | nil => rfl
    | cons c rest =>
      have hfirst : bodyOf? kind (c :: rest) = none := h 0 (Nat.succ_pos count)
      rw [scan, scan, hfirst]
      exact ih (place + 1) fun n hn => h (n + 1) (Nat.succ_lt_succ hn)

theorem le_start_of_mem_scan {place skip f} (h : f ∈ scan kind place skip cs) :
    place ≤ f.start := by
  fun_induction scan kind place skip cs with
  | case1 => cases h
  | case2 _ _ _ _ ih => exact Nat.le_of_succ_le (ih h)
  | case3 _ _ _ _ _ ih =>
    obtain rfl | h := mem_cons.mp h
    · exact Nat.le_refl _
    · exact Nat.le_of_succ_le (ih h)
  | case4 _ _ _ _ ih => exact Nat.le_of_succ_le (ih h)

theorem merge_cons_left {f} {rs es : List Fragment} (h : ∀ e ∈ es, f.start < e.start) :
    (f :: rs).merge es (fun r e => r.start < e.start) = f :: rs.merge es fun r e => r.start < e.start := by
  cases es with
  | nil => simp
  | cons e es => rw [cons_merge_cons, if_pos (by simpa using h e mem_cons_self)]

theorem merge_cons_right {f} {rs es : List Fragment} (h : ∀ r ∈ rs, f.start < r.start) :
    rs.merge (f :: es) (fun r e => r.start < e.start) = f :: rs.merge es fun r e => r.start < e.start := by
  cases rs with
  | nil => simp
  | cons r rs => rw [cons_merge_cons, if_neg (by simpa using Nat.le_of_lt (h r mem_cons_self))]

/-- An expression at the front is found first, and the other search passes over it. -/
theorem expressions_of_body {body after} (place : Nat)
    (h : body? (bracketed kind body ++ after) = some (kind, body)) :
    expressions place (bracketed kind body ++ after) =
      ⟨kind, String.ofList body, place, place + (body.length + 3)⟩ ::
        expressions (place + (body.length + 3)) after := by
  obtain ⟨hkind, hfree, -⟩ := stands_of_body? h
  have hcount := length_bracketed body hkind
  have hskip : ∀ other, scan other place (body.length + 3) (bracketed kind body ++ after) =
      scan other (place + (body.length + 3)) 0 after := by
    intro other
    rw [scan_skip place (by simp [hcount]), drop_left' hcount]
  have hown : scan kind place 0 (bracketed kind body ++ after) =
      ⟨kind, String.ofList body, place, place + (body.length + 3)⟩ ::
        scan kind (place + (body.length + 3)) 0 after := by
    rw [← hskip kind]
    cases hcs : bracketed kind body ++ after with
    | nil => simp [bracketed] at hcs
    | cons c rest =>
      have hfound := bodyOf?_eq_some_iff.mpr (hcs ▸ h)
      simp only [scan, hfound, Nat.add_assoc]
  have hother : ∀ other, other ≠ kind →
      scan other place 0 (bracketed kind body ++ after) = scan other (place + (body.length + 3)) 0 after := by
    intro other hne
    rw [scan_pass place (body.length + 3), hskip]
    intro n hn
    rw [Option.eq_none_iff_forall_ne_some]
    intro inside hinside
    have hbody := bodyOf?_eq_some_iff.mp hinside
    obtain rfl | hpos := Nat.eq_zero_or_pos n
    · cases hbody.symm.trans h
      exact hne rfl
    · exact not_stands_inside hkind hfree hpos hn (stands_of_body? hbody)
  have hlater : ∀ other, ∀ f ∈ scan other (place + (body.length + 3)) 0 after, place < f.start :=
    fun other f hf => Nat.lt_of_lt_of_le (by omega) (le_start_of_mem_scan hf)
  cases kind with
  | plain => exact absurd rfl hkind
  | reference => rw [expressions, hown, hother .script (by decide), merge_cons_left (hlater _), expressions]
  | script => rw [expressions, hown, hother .reference (by decide), merge_cons_right (hlater _), expressions]

/-! ## A text cut into parts -/

/-- No body begins in the first characters of a text. -/
def PlainUpTo (count : Nat) (cs : List Char) : Prop := ∀ n < count, body? (cs.drop n) = none

theorem expressions_of_plain {before rest} (place : Nat)
    (h : PlainUpTo before.length (before ++ rest)) :
    expressions place (before ++ rest) = expressions (place + before.length) rest := by
  have hscan : ∀ kind, scan kind place 0 (before ++ rest) = scan kind (place + before.length) 0 rest := by
    intro kind
    rw [scan_pass place before.length, scan_skip place (by simp), drop_left]
    intro n hn
    rw [Option.eq_none_iff_forall_ne_some]
    intro body hbody
    cases (h n hn).symm.trans (bodyOf?_eq_some_iff.mp hbody)
  simp only [expressions, hscan]

/-- The parts of a text from where its front ends. -/
def partsFrom (front cs : List Char) : List Fragment :=
  withPlain (front ++ cs) front.length (expressions front.length cs)

theorem partsFrom_plain (front : List Char) (h : PlainUpTo cs.length cs) :
    partsFrom front cs = [⟨.plain, String.ofList cs, front.length, front.length + cs.length⟩] := by
  have hnone := @expressions_of_plain cs [] front.length (by simpa using h)
  rw [append_nil] at hnone
  rw [partsFrom, hnone, expressions]
  simp only [scan, nil_merge, withPlain, plainPart, length_append, take_length_add_append, take_length, drop_left]

theorem partsFrom_found {before body after} (front)
    (hplain : PlainUpTo before.length (before ++ (bracketed kind body ++ after)))
    (hbody : body? (bracketed kind body ++ after) = some (kind, body)) :
    partsFrom front (before ++ (bracketed kind body ++ after)) =
      ⟨.plain, String.ofList before, front.length, front.length + before.length⟩ ::
      ⟨kind, String.ofList body, front.length + before.length, front.length + before.length + (body.length + 3)⟩ ::
      partsFrom (front ++ (before ++ bracketed kind body)) after := by
  have hfront : (front ++ (before ++ bracketed kind body)).length =
      front.length + before.length + (body.length + 3) := by
    simp [length_bracketed body (stands_of_body? hbody).1, Nat.add_assoc]
  have htake : ((front ++ (before ++ (bracketed kind body ++ after))).take (front.length + before.length)).drop
      front.length = before := by
    rw [take_length_add_append, take_left, drop_left]
  rw [partsFrom, expressions_of_plain _ hplain, expressions_of_body _ hbody, withPlain, plainPart,
    htake, partsFrom, hfront]
  simp only [append_assoc]

/-- How a text that begins at a place is cut: at its first body, if there is one, and then
behind that. -/
inductive Cuts : Nat → List Char → List Fragment → Prop
  | plain {place cs} (hplain : PlainUpTo cs.length cs) :
      Cuts place cs [⟨.plain, String.ofList cs, place, place + cs.length⟩]
  | found {place start before kind body after fs}
      (hplain : PlainUpTo before.length (before ++ (bracketed kind body ++ after)))
      (hbody : body? (bracketed kind body ++ after) = some (kind, body))
      (hstart : start = place + before.length)
      (hrest : Cuts (start + (body.length + 3)) after fs) :
      Cuts place (before ++ (bracketed kind body ++ after))
        (⟨.plain, String.ofList before, place, start⟩ ::
          ⟨kind, String.ofList body, start, start + (body.length + 3)⟩ :: fs)

theorem plain_or_found (cs : List Char) : PlainUpTo cs.length cs ∨ ∃ before kind body after,
    cs = before ++ (bracketed kind body ++ after) ∧ PlainUpTo before.length cs ∧
      body? (bracketed kind body ++ after) = some (kind, body) := by
  induction cs with
  | nil => exact .inl fun n hn => absurd hn (Nat.not_lt_zero n)
  | cons c rest ih =>
    cases hbody : body? (c :: rest) with
    | some found =>
      obtain ⟨-, -, after, hafter⟩ := stands_of_body? hbody
      refine .inr ⟨[], found.1, found.2, after, hafter.symm, fun n hn => absurd hn (Nat.not_lt_zero n), ?_⟩
      rw [hafter, hbody]
    | none =>
      have hmore : ∀ {count}, PlainUpTo count rest → PlainUpTo (count + 1) (c :: rest) := by
        intro count h n hn
        cases n with
        | zero => exact hbody
        | succ n => exact h n (Nat.lt_of_succ_lt_succ hn)
      obtain hplain | ⟨before, kind, body, after, rfl, hplain, hfound⟩ := ih
      · exact .inl (hmore hplain)
      · exact .inr ⟨c :: before, kind, body, after, rfl, hmore hplain, hfound⟩

theorem partsFrom_cuts (front cs : List Char) : Cuts front.length cs (partsFrom front cs) := by
  obtain hplain | ⟨before, kind, body, after, hcs, hplain, hbody⟩ := plain_or_found cs
  · rw [partsFrom_plain front hplain]
    exact .plain hplain
  · have hcount := length_bracketed body (stands_of_body? hbody).1
    have hshorter : after.length < cs.length := by
      simp only [hcs, length_append, hcount]
      omega
    have hrest := partsFrom_cuts (front ++ (before ++ bracketed kind body)) after
    rw [length_append, length_append, hcount, ← Nat.add_assoc] at hrest
    rw [hcs] at hplain ⊢
    rw [partsFrom_found front hplain hbody]
    exact .found hplain hbody rfl hrest
  termination_by cs.length
  decreasing_by exact hshorter

theorem fragments_cuts (text) : Cuts 0 text.toList (fragments text) := partsFrom_cuts [] text.toList

/-! ## What the parts are -/

variable {place : Nat} {cs : List Char} {fs : List Fragment}

section

variable (h : Cuts place cs fs)

include h

theorem Cuts.head? : fs.head?.map (·.start) = some place := by
  cases h <;> rfl

theorem Cuts.alternate :
    fs.length % 2 = 1 ∧ ∀ i f, fs[i]? = some f → (f.kind = .plain ↔ i % 2 = 0) := by
  induction h with
  | plain hplain =>
    refine ⟨rfl, fun i f hi => ?_⟩
    cases i with
    | zero => cases hi; simp
    | succ i => simp at hi
  | found hplain hbody hstart hrest ih =>
    refine ⟨by simp only [length_cons]; omega, fun i f hi => ?_⟩
    match i with
    | 0 => cases hi; simp
    | 1 => cases hi; simpa using (stands_of_body? hbody).1
    | i + 2 => simpa using ih.2 i f (by simpa using hi)

theorem Cuts.adjacent {i f g} (hf : fs[i]? = some f)
    (hg : fs[i + 1]? = some g) : f.stop = g.start := by
  induction h generalizing i with
  | plain hplain => simp at hg
  | found hplain hbody hstart hrest ih =>
    match i with
    | 0 => cases hf; cases hg; rfl
    | 1 =>
      cases hf
      have hhead := hrest.head?
      rw [head?_eq_getElem?] at hhead
      simp only [getElem?_cons_succ] at hg
      simpa [hg] using hhead.symm
    | i + 2 => exact ih (by simpa using hf) (by simpa using hg)

theorem Cuts.getLast? : fs.getLast?.map (·.stop) = some (place + cs.length) := by
  induction h with
  | plain hplain => rfl
  | @found place start before kind body after fs hplain hbody hstart hrest ih =>
    obtain ⟨f, rest, rfl⟩ : ∃ f rest, fs = f :: rest := by
      cases hrest <;> exact ⟨_, _, rfl⟩
    simp only [getLast?_cons_cons]
    rw [ih, hstart, length_append, length_append, length_bracketed body (stands_of_body? hbody).1]
    simp only [Nat.add_assoc]

theorem Cuts.joined : fs.flatMap Fragment.written = cs := by
  induction h with
  | plain hplain => simp [Fragment.written]
  | found hplain hbody hstart hrest ih =>
    simp [Fragment.written, (stands_of_body? hbody).1, ih]

theorem Cuts.span {f} (hf : f ∈ fs) :
    place ≤ f.start ∧ f.stop = f.start + f.written.length ∧ f.written <+: cs.drop (f.start - place) := by
  induction h with
  | plain hplain =>
    obtain rfl := mem_singleton.mp hf
    simp [Fragment.written]
  | @found place start before kind body after fs hplain hbody hstart hrest ih =>
    have hkind := (stands_of_body? hbody).1
    have hcount := length_bracketed body hkind
    rcases mem_cons.mp hf with rfl | hf
    · simp [Fragment.written, hstart]
    rcases mem_cons.mp hf with rfl | hf
    · simp [Fragment.written, hstart, hkind, hcount]
    · obtain ⟨hle, hstop, hin⟩ := ih hf
      refine ⟨by omega, hstop, ?_⟩
      have hskip : f.start - place = before.length + ((bracketed kind body).length +
          (f.start - (start + (body.length + 3)))) := by omega
      rw [hskip, drop_length_add_append, drop_length_add_append]
      exact hin

theorem Cuts.openerFree {f} (hf : f ∈ fs) (hkind : f.kind ≠ .plain) :
    OpenerFree f.text.toList := by
  induction h with
  | plain hplain =>
    obtain rfl := mem_singleton.mp hf
    exact absurd rfl hkind
  | found hplain hbody hstart hrest ih =>
    rcases mem_cons.mp hf with rfl | hf
    · exact absurd rfl hkind
    rcases mem_cons.mp hf with rfl | hf
    · simpa using (stands_of_body? hbody).2.1
    · exact ih hf

/-- Where a body stands, a part begins, and it is no shorter. -/
theorem Cuts.complete {n body} (hstands : Stands kind body (cs.drop n)) :
    ∃ f ∈ fs, f.kind = kind ∧ f.start = place + n ∧ body.length ≤ f.text.toList.length := by
  obtain ⟨longer, hfound, hle⟩ := hstands.body?
  induction h generalizing n with
  | @plain place cs hplain =>
    by_cases hn : n < cs.length
    · simp [hplain n hn] at hfound
    · simp [drop_eq_nil_of_le (Nat.le_of_not_lt hn), body?, opening?] at hfound
  | @found place start before kind' body' after fs hplain hbody hstart hrest ih =>
    have hother := stands_of_body? hbody
    have hcount := length_bracketed body' hother.1
    by_cases hn : n < before.length
    · simp [hplain n hn] at hfound
    obtain ⟨m, rfl⟩ := Nat.exists_eq_add_of_le (Nat.le_of_not_lt hn)
    rw [drop_length_add_append] at hstands hfound
    by_cases hm : m < body'.length + 3
    · have hzero : m = 0 := by
        false_or_by_contra
        exact not_stands_inside hother.1 hother.2.1 (by omega) hm hstands
      subst hzero
      cases hfound.symm.trans hbody
      exact ⟨_, mem_cons_of_mem _ mem_cons_self, rfl, by simpa using hstart, by simpa using hle⟩
    · obtain ⟨l, rfl⟩ := Nat.exists_eq_add_of_le (Nat.le_of_not_lt hm)
      rw [← hcount, drop_length_add_append] at hstands hfound
      obtain ⟨f, hf, hkind, hplace, hlength⟩ := ih hstands hfound
      exact ⟨f, mem_cons_of_mem _ (mem_cons_of_mem _ hf), hkind, by omega, hlength⟩

end

/-- The parts of a text are contiguous, begin and end where it does, and take turns: plain
text, which is its span, and expressions, whose spans are their bodies with the brackets.
No body has an opening inside, every body of the text is in some part, and all together
are the text. -/
theorem fragments_cover (text : String) :
    (fragments text).length % 2 = 1 ∧
    (∀ i f, (fragments text)[i]? = some f → (f.kind = .plain ↔ i % 2 = 0)) ∧
    (fragments text).head?.map (·.start) = some 0 ∧
    (fragments text).getLast?.map (·.stop) = some text.toList.length ∧
    (∀ i f g, (fragments text)[i]? = some f → (fragments text)[i + 1]? = some g →
      f.stop = g.start) ∧
    (∀ f ∈ fragments text,
      f.stop = f.start + f.written.length ∧ f.written <+: text.toList.drop f.start ∧
      (f.kind ≠ .plain → OpenerFree f.text.toList)) ∧
    (fragments text).flatMap Fragment.written = text.toList ∧
    ∀ n kind body, Stands kind body (text.toList.drop n) →
      ∃ f ∈ fragments text,
        f.kind = kind ∧ f.start = n ∧ body.length ≤ f.text.toList.length := by
  have hcuts := fragments_cuts text
  refine ⟨hcuts.alternate.1, hcuts.alternate.2, hcuts.head?, by simpa using hcuts.getLast?,
    fun i f g => hcuts.adjacent, fun f hf => ?_, hcuts.joined, fun n kind body hstands => ?_⟩
  · obtain ⟨-, hstop, hspan⟩ := hcuts.span hf
    exact ⟨hstop, by simpa using hspan, hcuts.openerFree hf⟩
  · simpa using hcuts.complete hstands

end CwlService.Expression
