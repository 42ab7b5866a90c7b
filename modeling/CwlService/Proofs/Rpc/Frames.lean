import CwlService.Proofs.Number.Digits
import CwlService.Proofs.Text.Split
import CwlService.Rpc.Frame

/-! # Frames are read one by one

A reader that finds the length in the first line of a header takes the rest of the header, as
many bytes as the length says, and nothing after them, whatever the bytes are. A body in ASCII
has as many bytes as characters, so the length in the frame of a message that is sent is right
for a reader that counts bytes. -/
namespace CwlService.Rpc

open List
open Text

/-! ## Lines -/

variable (l : HeaderLine) (lines : List HeaderLine) (p : Packet) (rest : List UInt8) (n : Nat)

theorem splitLine_append {bs} (h : 10 ∉ bs) (rest : List UInt8) :
    splitLine (bs ++ 10 :: rest) = (bs ++ [10], rest) := by
  induction bs with
  | nil => rfl
  | cons b bs ih =>
    have hb : (b == 10) = false := by
      simpa using fun heq : b = 10 => h (heq ▸ mem_cons_self)
    have hbs := ih fun hmem => h (mem_cons_of_mem _ hmem)
    simp only [cons_append, splitLine, hb, hbs]
    rfl

theorem eq_lineFeed_of_mem {c} (h : 10 ∈ charBytes c) : c = '\n' := by
  have hten : ∀ n : Nat, n < 256 → 10 = n.toUInt8 → n = 10 := by
    intro n hn heq
    rw [← toNat_toUInt8 hn, ← heq]
    rfl
  have hvalid : c.toNat < 0xD800 ∨ 0xDFFF < c.toNat ∧ c.toNat < 0x110000 := c.valid
  have hn : c.toNat = 10 := by
    unfold charBytes at h
    dsimp only at h
    split at h
    · exact hten _ (by omega) (mem_singleton.mp h)
    · split at h
      · simp only [mem_cons, not_mem_nil, or_false] at h
        obtain h | h := h <;> exact absurd (hten _ (by omega) h) (by omega)
      · split at h
        · simp only [mem_cons, not_mem_nil, or_false] at h
          obtain h | h | h := h <;> exact absurd (hten _ (by omega) h) (by omega)
        · simp only [mem_cons, not_mem_nil, or_false] at h
          obtain h | h | h | h := h <;> exact absurd (hten _ (by omega) h) (by omega)
  rw [← Char.ofNat_toNat c, hn]

theorem not_mem_bytes {s} (h : '\n' ∉ s.toList) : 10 ∉ bytes s := by
  rw [bytes, mem_flatMap]
  rintro ⟨c, hc, hten⟩
  exact h (eq_lineFeed_of_mem hten ▸ hc)

/-- A line of a header, without the line feed at its end. It is not the empty line that the
header ends with. -/
structure HeaderLine where
  text : String
  unbroken : '\n' ∉ text.toList
  notEmpty : text ≠ "\r"

namespace HeaderLine

/-- The line as it is read. -/
def full : String := l.text ++ "\n"

/-- A line that ends with a carriage return and a line feed. -/
def field (text : String) (h : '\n' ∉ text.toList) (hne : text ≠ "") : HeaderLine where
  text := text ++ "\r"
  unbroken := by simp [h]
  notEmpty := fun heq => hne (by simpa using congrArg String.toList heq)

theorem full_field {text} (h : '\n' ∉ text.toList) (hne : text ≠ "") :
    (field text h hne).full = text ++ lineEnd := by
  rw [full, field, String.append_assoc]
  rfl

theorem full_ne : l.full ≠ lineEnd := by
  intro heq
  have hends : lineEnd = "\r" ++ "\n" := by decide
  rw [full, hends] at heq
  have hlist := congrArg String.toList heq
  rw [String.toList_append, String.toList_append] at hlist
  exact l.notEmpty (String.toList_inj.mp (append_cancel_right hlist))

theorem bytes_full : bytes l.full = bytes l.text ++ [10] := bytes_append _ _

theorem splitLine_full : splitLine (bytes l.full ++ rest) = (bytes l.full, rest) := by
  rw [bytes_full, append_assoc, singleton_append, splitLine_append (not_mem_bytes l.unbroken)]

theorem bytes_full_ne_nil : bytes l.full ≠ [] := by
  rw [bytes_full]
  exact append_ne_nil_of_right_ne_nil _ (by decide)

end HeaderLine

/-! ## The line that gives the length -/

theorem lengthField_unbroken : '\n' ∉ (lengthField ++ toString n).toList := by
  have hfield : '\n' ∉ lengthField.toList := by decide
  rw [String.toList_append, Nat.toString_eq_ofList_toDigits, String.toList_ofList]
  intro hmem
  obtain hmem | hmem := mem_append.mp hmem
  · exact hfield hmem
  · exact absurd (Number.isDigit_toDigits _ hmem) (by decide)

theorem lengthField_ne : lengthField ++ toString n ≠ "" := by
  intro heq
  have hlength := congrArg String.length heq
  have hfield : lengthField.length = 16 := by decide
  rw [String.length_append, hfield, String.length_empty] at hlength
  omega

/-- The line that gives a length. -/
def lengthLine : HeaderLine :=
  .field (lengthField ++ toString n) (lengthField_unbroken n) (lengthField_ne n)

theorem contentLength?_line {n} (h : (Nat.toDigits 10 n).length ≤ Number.maxDigits) :
    contentLength? (lengthField ++ toString n ++ lineEnd) = .ok (some (n : Int)) := by
  have hdigits := Number.isDigit_toDigits (n := n)
  have hline : (lengthField ++ toString n ++ lineEnd).toList =
      lengthField.toList ++ (Nat.toDigits 10 n ++ ['\r', '\n']) := by
    rw [Nat.toString_eq_ofList_toDigits]
    simp [lineEnd]
  have hsuffix : lineEnd.toList.isSuffixOf (lengthField ++ toString n ++ lineEnd).toList = true := by
    rw [isSuffixOf_iff_suffix, String.toList_append]
    exact suffix_append _ _
  have hprefix : lengthField.toList.isPrefixOf
      (lengthField.toList ++ (Nat.toDigits 10 n ++ ['\r', '\n'])) = true :=
    isPrefixOf_iff_prefix.mpr (prefix_append _ _)
  have hdrop : (lengthField.toList ++ (Nat.toDigits 10 n ++ ['\r', '\n'])).drop lengthField.length =
      Nat.toDigits 10 n ++ ['\r', '\n'] := drop_left' (String.length_toList)
  have honce : holds lengthField.toList (Nat.toDigits 10 n ++ ['\r', '\n']) = false := by
    refine holds_eq_false (c := 'C') (by decide) ?_
    simpa using fun hmem => absurd (hdigits 'C' hmem) (by decide)
  have hstrip : strip (Nat.toDigits 10 n ++ ['\r', '\n']) = Nat.toDigits 10 n :=
    strip_append (fun c hc => Number.isBlank_of_isDigit (hdigits c hc)) (by simp [isBlank])
  simp only [contentLength?, hsuffix]
  simp only [hline, hprefix, hdrop, honce, hstrip, Number.integer?_toDigits h]
  rfl

theorem length_toDigits_of_isLength {n : Nat} (h : isLength n = true) :
    (Nat.toDigits 10 n).length ≤ Number.maxDigits := by
  simp only [isLength, Bool.and_eq_true, decide_eq_true_eq] at h
  have hshort : (Nat.toDigits 10 n).length ≤ 19 :=
    (Nat.length_toDigits_le_iff (by decide) (by decide)).mpr (by omega)
  exact Nat.le_trans hshort (by decide)

theorem contentLength?_lengthLine {n : Nat} (h : isLength n = true) :
    contentLength? (lengthLine n).full = .ok (some (n : Int)) := by
  rw [lengthLine, HeaderLine.full_field]
  exact contentLength?_line (length_toDigits_of_isLength h)

/-! ## Headers -/

/-- The bytes of a header: its lines, and the empty line. -/
def header : List UInt8 :=
  lines.flatMap (fun l => bytes l.full) ++ bytes lineEnd

theorem header_cons : header (l :: lines) ++ rest = bytes l.full ++ (header lines ++ rest) := by
  simp only [header, flatMap_cons, append_assoc]

theorem length_le_header : lines.length + 2 ≤ (header lines).length := by
  induction lines with
  | nil => exact Nat.le_refl 2
  | cons l lines ih =>
    have hcons := congrArg length (header_cons l lines [])
    have hpos := length_pos_iff.mpr l.bytes_full_ne_nil
    rw [append_nil, append_nil, length_append] at hcons
    rw [length_cons]
    omega

theorem skipHeader_read {line next} (hline : line ≠ lineEnd) {bs rest}
    (hsplit : splitLine (bytes next ++ rest) = (bytes next, rest)) (hbs : bytes next = bs)
    (hne : bs ≠ []) (lines : Nat) :
    skipHeader line (lines + 1) (bytes next ++ rest) = skipHeader next lines rest := by
  have hread : ofBytes? bs = some next := hbs ▸ ofBytes?_bytes next
  obtain ⟨b, bs, rfl⟩ := exists_cons_of_ne_nil hne
  rw [skipHeader, if_neg (by simpa using hline), hsplit, hbs]
  simp only [hread]

theorem skipHeader_header {line} (hline : line ≠ lineEnd) (lines : List HeaderLine) {reads}
    (hreads : lines.length + 2 ≤ reads) (rest : List UInt8) :
    skipHeader line reads (header lines ++ rest) = (.ok (), rest) := by
  induction lines generalizing line reads with
  | nil =>
    obtain ⟨reads, rfl⟩ := Nat.exists_eq_add_of_le' hreads
    have hno : (10 : UInt8) ∉ [13] := by decide
    have hsplit : splitLine (bytes lineEnd ++ rest) = (bytes lineEnd, rest) := splitLine_append hno rest
    exact skipHeader_read hline hsplit rfl (by decide) (reads + 1)
  | cons l lines ih =>
    rw [length_cons] at hreads
    obtain ⟨reads, rfl⟩ := Nat.exists_eq_add_one.mpr (show 0 < reads by omega)
    rw [header_cons, skipHeader_read hline (l.splitLine_full _) rfl l.bytes_full_ne_nil]
    exact ih l.full_ne (by omega)

theorem receive_header {first length} (hfirst : contentLength? first.full = .ok length)
    (hlength : length.all isLength = true) (lines : List HeaderLine) (rest : List UInt8) :
    receive (header (first :: lines) ++ rest) =
      (bodyMessage (splitBody length rest).1, (splitBody length rest).2) := by
  have hskip : skipHeader first.full ((header lines ++ rest).length + 2) (header lines ++ rest) =
      (.ok (), rest) := by
    refine skipHeader_header first.full_ne lines ?_ rest
    have hle := length_le_header lines
    rw [length_append]
    omega
  have hread := ofBytes?_bytes first.full
  have hsplit := first.splitLine_full (header lines ++ rest)
  obtain ⟨b, bs, hbs⟩ := exists_cons_of_ne_nil first.bytes_full_ne_nil
  rw [hbs] at hread hsplit
  rw [header_cons, hbs, receive, hsplit]
  simp only [hread, hfirst, hskip, hlength, if_true]

/-! ## Bodies -/

theorem splitBody_length (body rest : List UInt8) :
    splitBody (some (body.length : Int)) (body ++ rest) = (body, rest) := by
  have hnonneg : ¬ (body.length : Int) < 0 := by omega
  simp only [splitBody, hnonneg, if_false, Int.toNat_natCast, take_left, drop_left]

/-- A body without a message is the only cause that is found after its header. -/
theorem bodyMessage_eq_error {body f} (h : bodyMessage body = .error f) :
    f = .notText ∨ f = .notJson ∨ f = .enormous := by
  unfold bodyMessage at h
  cases htext : ofBytes? body with
  | none =>
    rw [htext] at h
    cases h
    exact .inl rfl
  | some text =>
    simp only [htext] at h
    split at h
    · cases h
    · cases h
      exact .inr (.inl rfl)
    · cases h
      exact .inr (.inr rfl)

/-- A frame whose header starts with the length of its body: the other lines of the header, and
any bytes, no more than can be asked for. -/
structure Packet where
  lines : List HeaderLine
  body : List UInt8
  isLength : isLength body.length = true

namespace Packet

/-- The bytes of a packet. -/
def bytes : List UInt8 := header (lengthLine p.body.length :: p.lines) ++ p.body

/-- The message in a packet, if its body is one of JSON in UTF-8. -/
def message? : Option Node := (ofBytes? p.body).bind Json.read?

end Packet

theorem receive_packet : receive (p.bytes ++ rest) = (bodyMessage p.body, rest) := by
  rw [Packet.bytes, append_assoc,
    receive_header (contentLength?_lengthLine p.isLength) (by rw [Option.all_some]; exact p.isLength),
    splitBody_length]

/-! ## Frames of messages -/

/-- What every header says about its body, as a line. -/
def typeLine : HeaderLine := .field typeField (by decide) (by decide)

theorem bytes_frame {body} (hascii : IsAscii body.toList) : bytes (frame body) =
      header [lengthLine (bytes body).length, typeLine] ++ bytes body := by
  simp only [frame, header, lengthLine, typeLine, flatMap_cons, flatMap_nil,
    HeaderLine.full_field, length_bytes hascii, bytes_append, append_assoc, append_nil]

theorem receive_frame {body} (hascii : IsAscii body.toList) (hlength : isLength body.length = true)
    (rest : List UInt8) :
    receive (bytes (frame body) ++ rest) = (bodyMessage (bytes body), rest) := by
  rw [bytes_frame hascii]
  exact receive_packet ⟨[typeLine], bytes body, by rwa [length_bytes hascii]⟩ rest

end CwlService.Rpc
