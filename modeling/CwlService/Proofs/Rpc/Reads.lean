import CwlService.Proofs.Rpc.Frames

/-! # How many lines are read for a message

A reader asks for lines until it gets the empty one that ends the header. At the end of the
stream it gets a text without any characters, again and again, and that is not the empty line.
So it ends, after the lines that there are, unless the stream ends within the header: then it
never does. Reading is written here as the reader does it, with a limit on the lines that it asks
for, and compared with `receive`, which knows when it would go on for ever. -/
namespace CwlService.Rpc

open List
open Text

/-! ## Lines of a stream -/

/-- The lines of a stream, each with its end. -/
def lines : List UInt8 → List (List UInt8)
  | [] => []
  | b :: rest =>
    if b == 10 then [b] :: lines rest
    else
      match lines rest with
      | [] => [[b]]
      | l :: ls => (b :: l) :: ls

variable {stream : List UInt8}

theorem eq_nil_of_lines (h : lines stream = []) : stream = [] := by
  cases stream with
  | nil => rfl
  | cons b rest =>
    rw [lines] at h
    split at h
    · cases h
    · split at h <;> cases h

variable {l rest : List UInt8} {limit more : Nat}

theorem splitLine_of_lines {ls} (h : lines stream = l :: ls) :
    ∃ rest, splitLine stream = (l, rest) ∧ l ≠ [] ∧ lines rest = ls := by
  induction stream generalizing l ls with
  | nil => cases h
  | cons b rest ih =>
    rw [lines] at h
    rw [splitLine]
    by_cases hb : b == 10
    · rw [if_pos hb] at h ⊢
      cases h
      exact ⟨rest, rfl, cons_ne_nil _ _, rfl⟩
    · rw [if_neg hb] at h ⊢
      cases hrest : lines rest with
      | nil =>
        rw [hrest] at h
        cases h
        rw [eq_nil_of_lines hrest]
        exact ⟨[], rfl, cons_ne_nil _ _, rfl⟩
      | cons first others =>
        rw [hrest] at h
        cases h
        obtain ⟨after, hsplit, _, hafter⟩ := ih hrest
        exact ⟨after, by rw [hsplit], cons_ne_nil _ _, hafter⟩

theorem length_lines_le (stream : List UInt8) : (lines stream).length ≤ stream.length := by
  induction stream with
  | nil => exact Nat.le_refl _
  | cons b rest ih =>
    rw [lines, length_cons]
    split
    · exact Nat.succ_le_succ ih
    · split
      · exact Nat.succ_le_succ (Nat.zero_le _)
      · rename_i hrest
        rw [hrest] at ih
        exact Nat.le_trans ih (Nat.le_succ _)

/-! ## Reading -/

/-- The next line of a stream, which is a text without characters at the end. -/
def readLine (stream : List UInt8) : Except FrameFault String × List UInt8 :=
  match ofBytes? (splitLine stream).1 with
  | some line => (.ok line, (splitLine stream).2)
  | none => (.error .notText, (splitLine stream).2)

/-- Reads lines after a line up to the empty one; gives nothing if it is not done after so many. -/
def headerWithin : Nat → String → List UInt8 → Option (Except FrameFault Unit × List UInt8)
  | limit, line, stream =>
    if line == lineEnd then some (.ok (), stream)
    else
      match limit with
      | 0 => none
      | limit + 1 =>
        match readLine stream with
        | (.error f, rest) => some (.error f, rest)
        | (.ok next, rest) => headerWithin limit next rest

/-- What follows a header: a body of the length that it gives. -/
def bodyAfter (length : Option Int) :
    Except FrameFault Unit × List UInt8 → Except FrameFault Node × List UInt8
  | (.error f, rest) => (.error f, rest)
  | (.ok (), rest) =>
    if length.all isLength then
      let (body, rest) := splitBody length rest
      (bodyMessage body, rest)
    else (.error .hugeLength, rest)

/-- Reads a message; gives nothing if it is not done with the header after so many lines. -/
def receiveWithin : Nat → List UInt8 → Option (Except FrameFault Node × List UInt8)
  | 0, _ => none
  | limit + 1, stream =>
    match readLine stream with
    | (.error f, rest) => some (.error f, rest)
    | (.ok line, rest) =>
      if line == "" then some (.error .ended, rest)
      else
        match contentLength? line with
        | .error f => some (.error f, rest)
        | .ok length => (headerWithin limit line rest).map (bodyAfter length)

/-- A line with which a header goes on: a text, and not the empty line. -/
def GoesOnWith (l : List UInt8) : Prop := ∃ text, ofBytes? l = some text ∧ text ≠ lineEnd

/-- The header after a line has no end in the stream. -/
def Unended (line : String) (stream : List UInt8) : Prop :=
  line ≠ lineEnd ∧ ∀ l ∈ lines stream, GoesOnWith l

/-- A stream that ends within the header of its first message: the first line can be one of a
header, all lines are texts, and none is the empty line. -/
def EndsInHeader (stream : List UInt8) : Prop :=
  ∃ first others line length, lines stream = first :: others ∧ ofBytes? first = some line ∧
    contentLength? line = .ok length ∧ ∀ l ∈ lines stream, GoesOnWith l

/-! ## Headers -/

theorem readLine_nil : readLine [] = (.ok "", []) := rfl

variable {line : String}

theorem readLine_eq (hsplit : splitLine stream = (l, rest))
    (hline : ofBytes? l = some line) : readLine stream = (.ok line, rest) := by
  simp only [readLine, hsplit, hline]

theorem readLine_fault (hsplit : splitLine stream = (l, rest))
    (hline : ofBytes? l = none) : readLine stream = (.error .notText, rest) := by
  simp only [readLine, hsplit, hline]

/-- After a header without an end, one more line is asked for, whatever the limit. -/
theorem headerWithin_unended (h : Unended line stream)
    (limit : Nat) : headerWithin limit line stream = none := by
  induction limit generalizing line stream with
  | zero => rw [headerWithin, if_neg (by simpa using h.1)]
  | succ limit ih =>
    rw [headerWithin, if_neg (by simpa using h.1)]
    cases hlines : lines stream with
    | nil =>
      rw [eq_nil_of_lines hlines, readLine_nil]
      exact ih ⟨by decide, by simp [lines]⟩
    | cons l ls =>
      obtain ⟨rest, hsplit, _, hrest⟩ := splitLine_of_lines hlines
      have hall := h.2
      rw [hlines, forall_mem_cons] at hall
      obtain ⟨⟨next, hnext, hne⟩, hothers⟩ := hall
      rw [readLine_eq hsplit hnext]
      exact ih ⟨hne, by rwa [hrest]⟩

theorem skipHeader_unended (h : Unended line stream)
    (limit : Nat) : (skipHeader line limit stream).1 = .error .openHeader := by
  induction limit generalizing line stream with
  | zero => rfl
  | succ limit ih =>
    rw [skipHeader, if_neg (by simpa using h.1)]
    cases hlines : lines stream with
    | nil =>
      rw [eq_nil_of_lines hlines]
      rfl
    | cons l ls =>
      obtain ⟨rest, hsplit, hne, hrest⟩ := splitLine_of_lines hlines
      have hall := h.2
      rw [hlines, forall_mem_cons] at hall
      obtain ⟨⟨next, hnext, hnext'⟩, hothers⟩ := hall
      obtain ⟨b, bs, rfl⟩ := exists_cons_of_ne_nil hne
      simp only [hsplit, hnext]
      exact ih ⟨hnext', by rwa [hrest]⟩

theorem headerWithin_lineEnd (limit : Nat) (stream : List UInt8) :
    headerWithin limit lineEnd stream = some (.ok (), stream) := by
  cases limit <;> rfl

/-- A header with an end is read to it, or to the first line that is no text. -/
theorem headerWithin_ended (h : ¬ Unended line stream) {bound}
    (hlimit : (lines stream).length ≤ limit) (hbound : (lines stream).length < bound) :
    headerWithin limit line stream = some (skipHeader line bound stream) ∧
      (skipHeader line bound stream).1 ≠ .error .openHeader := by
  induction hlines : lines stream generalizing line stream limit bound with
  | nil =>
    have hend : line = lineEnd :=
      Classical.byContradiction fun hne => h ⟨hne, by simp [hlines]⟩
    obtain ⟨bound, rfl⟩ := Nat.exists_eq_add_one.mpr (Nat.zero_lt_of_lt hbound)
    rw [hend, headerWithin_lineEnd]
    exact ⟨rfl, by simp [skipHeader]⟩
  | cons l ls ih =>
    obtain ⟨bound, rfl⟩ := Nat.exists_eq_add_one.mpr (Nat.zero_lt_of_lt hbound)
    by_cases hend : line = lineEnd
    · rw [hend, headerWithin_lineEnd]
      exact ⟨rfl, by simp [skipHeader]⟩
    obtain ⟨rest, hsplit, hne, hrest⟩ := splitLine_of_lines hlines
    rw [hlines, length_cons] at hlimit hbound
    obtain ⟨limit, rfl⟩ := Nat.exists_eq_add_one.mpr (Nat.zero_lt_of_lt hlimit)
    obtain ⟨b, bs, rfl⟩ := exists_cons_of_ne_nil hne
    rw [headerWithin, skipHeader, if_neg (by simpa using hend), if_neg (by simpa using hend)]
    cases hnext : ofBytes? (b :: bs) with
    | none =>
      simp only [readLine_fault hsplit hnext, hsplit, hnext]
      exact ⟨trivial, by simp⟩
    | some next =>
      have hmore : ¬ Unended next rest := by
        rintro ⟨hnext', hothers⟩
        refine h ⟨hend, ?_⟩
        rw [hlines, forall_mem_cons, ← hrest]
        exact ⟨⟨next, hnext, hnext'⟩, hothers⟩
      simp only [readLine_eq hsplit hnext, hsplit, hnext]
      exact ih hmore (by rw [hrest]; omega) (by rw [hrest]; omega) hrest

/-! ## Messages -/

theorem decodeFrom_some_ne_nil (g : Begun) (bs : List UInt8) : decodeFrom (some g) bs ≠ [] := by
  induction bs generalizing g with
  | nil => simp [decodeFrom]
  | cons b bs ih =>
    rw [decodeFrom]
    split
    · dsimp only
      split
      · exact cons_ne_nil _ _
      · exact ih _
    · split <;> exact cons_ne_nil _ _

theorem ne_empty_of_ofBytes? (hl : l ≠ []) (h : ofBytes? l = some line) : line ≠ "" := by
  rintro rfl
  have hdecode : decodeFrom none l ≠ [] := by
    obtain ⟨b, bs, rfl⟩ := exists_cons_of_ne_nil hl
    rw [decodeFrom]
    split
    · exact cons_ne_nil _ _
    · exact cons_ne_nil _ _
    · rename_i begun hne hbegun
      cases begun with
      | none => exact absurd rfl hne
      | some g => exact decodeFrom_some_ne_nil g bs
  obtain ⟨o, os, hcons⟩ := exists_cons_of_ne_nil hdecode
  rw [ofBytes?, hcons] at h
  cases o with
  | none => cases h
  | some c =>
    cases hos : os.mapM id with
    | none => simp [hos] at h
    | some cs => simp [hos] at h

theorem endsInHeader_iff {stream first others} (hlines : lines stream = first :: others)
    (hrest : lines rest = others) (hline : ofBytes? first = some line) {length}
    (hlength : contentLength? line = .ok length) :
    EndsInHeader stream ↔ Unended line rest := by
  constructor
  · rintro ⟨_, _, _, _, _, _, _, hall⟩
    rw [hlines, forall_mem_cons] at hall
    obtain ⟨⟨text, htext, hne⟩, hothers⟩ := hall
    rw [hline] at htext
    cases htext
    exact ⟨hne, by rwa [hrest]⟩
  · rintro ⟨hne, hothers⟩
    refine ⟨first, others, line, length, hlines, hline, hlength, ?_⟩
    rw [hlines, forall_mem_cons, ← hrest]
    exact ⟨⟨line, hline, hne⟩, hothers⟩

theorem headerWithin_mono {r} (h : headerWithin limit line stream = some r) (hmore : limit ≤ more) :
    headerWithin more line stream = some r := by
  induction limit generalizing line stream more with
  | zero =>
    rw [headerWithin] at h
    split at h
    · rename_i hend
      rw [eq_of_beq hend, headerWithin_lineEnd]
      exact h
    · cases h
  | succ limit ih =>
    obtain ⟨more, rfl⟩ := Nat.exists_eq_add_one.mpr (Nat.zero_lt_of_lt hmore)
    rw [headerWithin] at h ⊢
    split at h
    · rename_i hend
      rw [if_pos hend]
      exact h
    · rename_i hend
      rw [if_neg hend]
      cases hread : readLine stream with
      | mk e rest =>
        rw [hread] at h
        cases e with
        | error f => exact h
        | ok next => exact ih h (Nat.le_of_succ_le_succ hmore)

theorem receiveWithin_mono {r} (h : receiveWithin limit stream = some r) (hmore : limit ≤ more) :
    receiveWithin more stream = some r := by
  cases limit with
  | zero => cases h
  | succ limit =>
    obtain ⟨more, rfl⟩ := Nat.exists_eq_add_one.mpr (Nat.zero_lt_of_lt hmore)
    rw [receiveWithin] at h ⊢
    split at h
    · exact h
    · rename_i line rest hread
      split at h
      · rename_i hend
        simpa only [if_pos hend] using h
      · rename_i hend
        simp only [if_neg hend]
        split at h
        · exact h
        · rename_i length hlength
          obtain ⟨q, hheader, hq⟩ := Option.map_eq_some_iff.mp h
          rw [headerWithin_mono hheader (Nat.le_of_succ_le_succ hmore), ← hq]
          rfl

theorem contentLength?_ne_openHeader (line) : contentLength? line ≠ .error .openHeader := by
  simp only [contentLength?]
  split
  · simp [throw, throwThe, MonadExceptOf.throw]
  · split
    · split
      · simp [throw, throwThe, MonadExceptOf.throw]
      · split <;> simp [throw, throwThe, MonadExceptOf.throw, pure, Except.pure]
    · simp [pure, Except.pure]

theorem bodyAfter_openHeader {length q} :
    (bodyAfter length q).1 = .error .openHeader ↔ q.1 = .error .openHeader := by
  obtain ⟨e, rest⟩ := q
  cases e with
  | error f => simp [bodyAfter]
  | ok _ =>
    simp only [bodyAfter, reduceCtorEq, iff_false]
    split
    · intro hbody
      obtain hf | hf | hf := bodyMessage_eq_error hbody <;> cases hf
    · simp

section

variable {stream first rest : List UInt8} {line : String} (hsplit : splitLine stream = (first, rest))
  (hne : first ≠ []) (hline : ofBytes? first = some line)
include hsplit hne hline

theorem receive_firstLine : receive stream =
    match contentLength? line with
    | .error f => (.error f, rest)
    | .ok length => bodyAfter length (skipHeader line (rest.length + 2) rest) := by
  obtain ⟨b, bs, rfl⟩ := exists_cons_of_ne_nil hne
  simp only [receive, hsplit, hline]
  cases contentLength? line with
  | error f => rfl
  | ok length =>
    cases skipHeader line (rest.length + 2) rest with
    | mk e after =>
      cases e with
      | error f => rfl
      | ok _ => rfl

theorem receiveWithin_firstLine (limit : Nat) : receiveWithin (limit + 1) stream =
    match contentLength? line with
    | .error f => some (.error f, rest)
    | .ok length => (headerWithin limit line rest).map (bodyAfter length) := by
  have hempty : ¬ (line == "") = true := by simpa using ne_empty_of_ofBytes? hne hline
  simp only [receiveWithin, readLine_eq hsplit hline, if_neg hempty]

end

/-- A stream that ends within a header is read for ever. -/
theorem receive_endsInHeader (h : EndsInHeader stream) :
    (∀ limit, receiveWithin limit stream = none) ∧ (receive stream).1 = .error .openHeader := by
  obtain ⟨first, others, line, length, hlines, hline, hlength, _⟩ := id h
  obtain ⟨rest, hsplit, hne, hrest⟩ := splitLine_of_lines hlines
  have hopen := (endsInHeader_iff hlines hrest hline hlength).mp h
  refine ⟨fun limit => ?_, ?_⟩
  · cases limit with
    | zero => rfl
    | succ limit =>
      rw [receiveWithin_firstLine hsplit hne hline, hlength]
      exact congrArg (Option.map (bodyAfter length)) (headerWithin_unended hopen limit)
  · rw [receive_firstLine hsplit hne hline, hlength]
    exact bodyAfter_openHeader.mpr (skipHeader_unended hopen _)

/-- Every other stream is read within the number of its lines and one more. -/
theorem receive_not_endsInHeader (h : ¬ EndsInHeader stream) :
    receiveWithin ((lines stream).length + 1) stream = some (receive stream) ∧
      (receive stream).1 ≠ .error .openHeader := by
  cases hlines : lines stream with
  | nil =>
    rw [eq_nil_of_lines hlines]
    exact ⟨rfl, by simp [receive, splitLine]⟩
  | cons first others =>
    obtain ⟨rest, hsplit, hne, hrest⟩ := splitLine_of_lines hlines
    cases hline : ofBytes? first with
    | none =>
      obtain ⟨b, bs, rfl⟩ := exists_cons_of_ne_nil hne
      simp only [receiveWithin, readLine_fault hsplit hline, receive, hsplit, hline]
      exact ⟨trivial, by simp⟩
    | some line =>
      rw [receive_firstLine hsplit hne hline, receiveWithin_firstLine hsplit hne hline]
      cases hlength : contentLength? line with
      | error f =>
        refine ⟨rfl, fun heq => contentLength?_ne_openHeader line ?_⟩
        rw [hlength]
        exact congrArg _ (Except.error.inj heq)
      | ok length =>
        have hended : ¬ Unended line rest :=
          fun hopen => h ((endsInHeader_iff hlines hrest hline hlength).mpr hopen)
        have hlimit : (lines rest).length ≤ (first :: others).length := by
          rw [hrest]
          exact Nat.le_succ _
        have hbound : (lines rest).length < rest.length + 2 :=
          Nat.lt_of_le_of_lt (length_lines_le rest) (Nat.lt_add_of_pos_right (by decide))
        obtain ⟨hheader, hskip⟩ := headerWithin_ended hended hlimit hbound
        exact ⟨congrArg (Option.map (bodyAfter length)) hheader, fun heq => hskip (bodyAfter_openHeader.mp heq)⟩

/-- Reading a message ends exactly if the stream does not end within a header. It then gives what
is received, and does not ask for more than the lines of the stream and once for what follows
them. In a stream that ends within a header it asks for lines for ever. -/
theorem receive_ends_iff (stream : List UInt8) :
    ((∃ limit r, receiveWithin limit stream = some r) ↔ ¬ EndsInHeader stream) ∧
    (∀ limit r, receiveWithin limit stream = some r → r = receive stream) ∧
    (¬ EndsInHeader stream → receiveWithin ((lines stream).length + 1) stream = some (receive stream)) ∧
    ((receive stream).1 = .error .openHeader ↔ EndsInHeader stream) := by
  by_cases h : EndsInHeader stream
  · obtain ⟨hnever, hopen⟩ := receive_endsInHeader h
    refine ⟨⟨?_, fun hnot => absurd h hnot⟩, ?_, fun hnot => absurd h hnot, fun _ => h, fun _ => hopen⟩
    · rintro ⟨limit, r, hread⟩
      rw [hnever] at hread
      cases hread
    · intro limit r hread
      rw [hnever] at hread
      cases hread
  · obtain ⟨hread, hopen⟩ := receive_not_endsInHeader h
    refine ⟨⟨fun _ => h, fun _ => ⟨_, _, hread⟩⟩, fun limit r hlimit => ?_, fun _ => hread,
      fun heq => absurd heq hopen, fun hends => absurd hends h⟩
    have hmore := receiveWithin_mono hlimit (Nat.le_max_left limit ((lines stream).length + 1))
    rw [receiveWithin_mono hread (Nat.le_max_right _ _)] at hmore
    exact (Option.some.inj hmore).symm

theorem lines_full (l : HeaderLine) : lines (bytes l.full) = [bytes l.full] := by
  have hfull := l.splitLine_full []
  rw [append_nil] at hfull
  cases hlines : lines (bytes l.full) with
  | nil => exact absurd (eq_nil_of_lines hlines) l.bytes_full_ne_nil
  | cons first others =>
    obtain ⟨rest, hsplit, _, hrest⟩ := splitLine_of_lines hlines
    rw [hfull] at hsplit
    cases hsplit
    rw [← hrest]
    rfl

/-- A stream that was cut after its first line. -/
theorem receive_ends_iff_cut : EndsInHeader (bytes "Content-Length: 5\r\n") ∧
    ¬ ∃ limit r, receiveWithin limit (bytes "Content-Length: 5\r\n") = some r := by
  have htext : "Content-Length: 5\r\n" = (lengthLine 5).full := by decide
  have hends : EndsInHeader (bytes "Content-Length: 5\r\n") := by
    rw [htext]
    refine ⟨_, [], _, _, lines_full _, ofBytes?_bytes _, contentLength?_lengthLine (by decide), ?_⟩
    rw [lines_full, List.forall_mem_singleton]
    exact ⟨_, ofBytes?_bytes _, HeaderLine.full_ne _⟩
  exact ⟨hends, fun hread => (receive_ends_iff _).1.mp hread hends⟩

end CwlService.Rpc
