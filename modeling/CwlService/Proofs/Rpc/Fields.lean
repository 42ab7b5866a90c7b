import CwlService.Proofs.Rpc.Exchange

/-! # The order of the fields of a header

The length of a body is looked for in the first line of a header and nowhere else. So messages
are received one by one exactly if the length comes first in every header but the last: a header
that starts with another field makes all that is left of the stream the body, and the frames in
it are lost. -/
namespace CwlService.Rpc

open List
open Text

/-- A field of a header that does not give the length: a line that ends with a carriage return
and a line feed. -/
structure HeaderField where
  text : String
  unbroken : '\n' ∉ text.toList
  notEmpty : text ≠ ""
  notLength : ¬ lengthField.toList <+: text.toList

namespace HeaderField

def line (f : HeaderField) : HeaderLine := .field f.text f.unbroken f.notEmpty

theorem not_lengthField (f : HeaderField) : ¬ lengthField.toList <+: (f.text ++ lineEnd).toList := by
  rw [String.toList_append]
  intro hlength
  obtain hshort | ⟨more, hmore⟩ :=
    prefix_or_prefix_of_prefix hlength (prefix_append f.text.toList lineEnd.toList)
  · exact f.notLength hshort
  · rw [← hmore, prefix_append_right_inj] at hlength
    cases more with
    | nil =>
      rw [append_nil] at hmore
      exact f.notLength (hmore ▸ prefix_rfl)
    | cons c more =>
      have hc : c = '\r' := (cons_prefix_cons.mp hlength).1
      have hmem : '\r' ∈ lengthField.toList := hmore ▸ by simp [hc]
      exact absurd hmem (by decide)

theorem contentLength?_line (f : HeaderField) : contentLength? f.line.full = .ok none := by
  have hsuffix : lineEnd.toList.isSuffixOf (f.text ++ lineEnd).toList = true := by
    rw [isSuffixOf_iff_suffix, String.toList_append]
    exact suffix_append _ _
  have hprefix : lengthField.toList.isPrefixOf (f.text ++ lineEnd).toList = false := by
    rw [Bool.eq_false_iff, ne_eq, isPrefixOf_iff_prefix]
    exact f.not_lengthField
  rw [line, HeaderLine.full_field]
  simp only [contentLength?, hsuffix, hprefix]
  rfl

end HeaderField

/-- A message in a frame whose header gives the length between other fields. -/
structure FieldFrame where
  before : List HeaderField
  after : List HeaderField
  body : List UInt8
  message : Node
  isLength : isLength body.length = true
  isMessage : bodyMessage body = .ok message

namespace FieldFrame

/-- The lines of the header. -/
def lines (f : FieldFrame) : List HeaderLine :=
  f.before.map HeaderField.line ++ lengthLine f.body.length :: f.after.map HeaderField.line

def bytes (f : FieldFrame) : List UInt8 := header f.lines ++ f.body

theorem bytes_ne_nil (f : FieldFrame) : f.bytes ≠ [] := by
  have hheader := length_le_header f.lines
  refine length_pos_iff.mp ?_
  rw [bytes, length_append]
  omega

/-- A frame that gives its length first is taken from the stream, and no more. -/
theorem receive_lengthFirst {f : FieldFrame} (h : f.before = []) (rest : List UInt8) :
    receive (f.bytes ++ rest) = (.ok f.message, rest) := by
  have hpacket := receive_packet ⟨f.after.map HeaderField.line, f.body, f.isLength⟩ rest
  rw [f.isMessage] at hpacket
  rw [bytes, lines, h]
  exact hpacket

/-- A frame that starts with another field makes the rest of the stream its body. -/
theorem receive_lengthLater {f : FieldFrame} (h : f.before ≠ []) (rest : List UInt8) :
    receive (f.bytes ++ rest) = (bodyMessage (f.body ++ rest), []) := by
  obtain ⟨first, others, hbefore⟩ := exists_cons_of_ne_nil h
  rw [bytes, lines, hbefore, append_assoc, map_cons, cons_append,
    receive_header first.contentLength?_line rfl]
  rfl

/-- The last frame of a stream is its rest, so that its length does not matter. -/
theorem receive_last (f : FieldFrame) : receive f.bytes = (.ok f.message, []) := by
  rw [← append_nil f.bytes]
  by_cases h : f.before = []
  · exact receive_lengthFirst h []
  · rw [receive_lengthLater h, append_nil, f.isMessage]

/-- The bytes of frames, one after the other. -/
def joined (frames : List FieldFrame) : List UInt8 := frames.flatMap bytes

variable {f g : FieldFrame} {frames : List FieldFrame}

/-- Where another frame follows, a message is received out of its own frame exactly if the length
is given first. -/
theorem receive_followed :
    receive (joined (f :: g :: frames)) = (.ok f.message, joined (g :: frames)) ↔ f.before = [] := by
  constructor
  · refine fun hreceive => Classical.byContradiction fun hlater => ?_
    have hrest := (receive_lengthLater hlater (joined (g :: frames))).symm.trans hreceive
    have hnil : [] = joined (g :: frames) := congrArg Prod.snd hrest
    exact g.bytes_ne_nil (append_eq_nil_iff.mp hnil.symm).1
  · intro hfirst
    exact receive_lengthFirst hfirst _

end FieldFrame

namespace Connection
open FieldFrame

/-- Messages are received one after the other, each out of its own frame. -/
def ReceivesInOrder (frames : List FieldFrame) (c : Connection) : Prop :=
  ∀ k ≤ frames.length, (receives k).run.run { c with stream := joined frames } =
    (.ok ((frames.take k).map message), { c with stream := joined (frames.drop k) })

variable {f : FieldFrame} {frames : List FieldFrame} {c : Connection}

/-- After the first message the others are received as from a stream of their own. -/
theorem receivesInOrder_cons (h : Rpc.receive (joined (f :: frames)) = (.ok f.message, joined frames)) :
    ReceivesInOrder (f :: frames) c ↔ ReceivesInOrder frames c := by
  have hfirst : receive.run.run { c with stream := joined (f :: frames) } =
      (.ok f.message, { c with stream := joined frames }) :=
    receive_of_frame (c := { c with stream := joined (f :: frames) }) h
  have hsucc : ∀ k, (receives (k + 1)).run.run { c with stream := joined (f :: frames) } =
      (receives k >>= fun others => pure (f.message :: others)).run.run { c with stream := joined frames } :=
    fun k => run_bind hfirst
  constructor
  · intro hall k hk
    have hmore := hall (k + 1) (Nat.succ_le_succ hk)
    rw [hsucc] at hmore
    cases hrun : (receives k).run.run { c with stream := joined frames } with
    | mk r d =>
      cases r with
      | error e =>
        rw [run_bind_error hrun] at hmore
        cases hmore
      | ok ms =>
        rw [run_bind hrun] at hmore
        cases hmore
        rfl
  · intro hall k hk
    cases k with
    | zero => rfl
    | succ k =>
      rw [hsucc, run_bind (hall k (Nat.le_of_succ_le_succ hk))]
      rfl

theorem receive_of_receivesInOrder (h : ReceivesInOrder (f :: frames) c) :
    Rpc.receive (joined (f :: frames)) = (.ok f.message, joined frames) := by
  have hone := h 1 (Nat.le_add_left 1 _)
  cases hreceive : Rpc.receive (joined (f :: frames)) with
  | mk r rest =>
    cases r with
    | error e =>
      have hrun := receive_of_fault (c := { c with stream := joined (f :: frames) }) hreceive
      rw [receives, run_bind_error hrun] at hone
      cases hone
    | ok m =>
      have hrun := receive_of_frame (c := { c with stream := joined (f :: frames) }) hreceive
      rw [receives, run_bind hrun] at hone
      obtain ⟨hm, hrest⟩ := Prod.ext_iff.mp hone
      have hmessage : [m] = [f.message] := Except.ok.inj hm
      have hstream : rest = joined frames := congrArg stream hrest
      rw [singleton_inj.mp hmessage, hstream]

theorem receivesInOrder_iff : ReceivesInOrder frames c ↔ ∀ f ∈ frames.dropLast, f.before = [] := by
  induction frames with
  | nil =>
    refine ⟨fun _ _ hmem => absurd hmem not_mem_nil, fun _ k hk => ?_⟩
    rw [Nat.le_zero.mp hk]
    rfl
  | cons f frames ih =>
    cases frames with
    | nil =>
      have hlast : Rpc.receive (joined [f]) = (.ok f.message, joined []) := by
        rw [joined, flatMap_singleton]
        exact f.receive_last
      rw [receivesInOrder_cons hlast, ih]
      rfl
    | cons g frames =>
      rw [dropLast_cons_of_ne_nil (cons_ne_nil g frames), forall_mem_cons]
      constructor
      · intro hall
        have hfirst := receive_of_receivesInOrder hall
        exact ⟨receive_followed.mp hfirst, ih.mp ((receivesInOrder_cons hfirst).mp hall)⟩
      · rintro ⟨hfirst, hothers⟩
        exact (receivesInOrder_cons (receive_followed.mpr hfirst)).mpr (ih.mpr hothers)

/-- Messages of JSON in frames with fields in any order are received one after the other, each
out of its own frame, exactly if every header but the last gives the length in its first line. A
header that starts with another field makes all that follows the body, and nothing is left. -/
theorem receives_in_order_iff (frames : List FieldFrame) (c : Connection) :
    ((∀ k ≤ frames.length, (receives k).run.run { c with stream := joined frames } =
        (.ok ((frames.take k).map message), { c with stream := joined (frames.drop k) })) ↔
      ∀ f ∈ frames.dropLast, f.before = []) ∧
    ∀ (f : FieldFrame) (rest : List UInt8), f.before ≠ [] → receive.run.run { c with stream := f.bytes ++ rest } =
      ((bodyMessage (f.body ++ rest)).mapError .frame, { c with stream := [] }) := by
  refine ⟨receivesInOrder_iff, fun f rest hlater => ?_⟩
  have hreceive := receive_lengthLater hlater rest
  cases hbody : bodyMessage (f.body ++ rest) with
  | ok m =>
    rw [hbody] at hreceive
    exact receive_of_frame (c := { c with stream := f.bytes ++ rest }) hreceive
  | error e =>
    rw [hbody] at hreceive
    exact receive_of_fault (c := { c with stream := f.bytes ++ rest }) hreceive

/-- An empty object in a frame that says first what it holds and then how long it is. -/
def typedFrame : FieldFrame where
  before := [⟨"Content-Type: json", by decide, by decide, by decide⟩]
  after := []
  body := bytes "\x7b\x7d"
  message := .record []
  isLength := by decide
  isMessage := bodyMessage_text? (.record (by decide) (by simp) (by simp)) (by decide +kernel)

/-- Of two such frames not even the first is received. -/
theorem receives_in_order_iff_typed :
    ¬ (∀ k ≤ 2, (receives k).run.run { stream := joined [typedFrame, typedFrame] } =
      (.ok (([typedFrame, typedFrame].take k).map message),
        { stream := joined ([typedFrame, typedFrame].drop k) })) ∧
    receive.run.run { stream := typedFrame.bytes ++ typedFrame.bytes } =
      (.error (.frame .notJson), { stream := [] }) := by
  obtain ⟨hiff, hlater⟩ := receives_in_order_iff [typedFrame, typedFrame] { stream := [] }
  have hfault : (bodyMessage (typedFrame.body ++ typedFrame.bytes)).map (fun _ => ()) = .error .notJson := by
    decide +kernel
  have hbody : bodyMessage (typedFrame.body ++ typedFrame.bytes) = .error .notJson := by
    cases hb : bodyMessage (typedFrame.body ++ typedFrame.bytes) with
    | error e => rw [hb] at hfault; cases hfault; rfl
    | ok m => rw [hb] at hfault; cases hfault
  refine ⟨fun hall => ?_, ?_⟩
  · exact absurd (hiff.mp hall typedFrame (mem_singleton.mpr rfl)) (cons_ne_nil _ _)
  · rw [hlater typedFrame typedFrame.bytes (cons_ne_nil _ _), hbody]
    rfl

end Connection
end CwlService.Rpc
