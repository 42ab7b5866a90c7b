import CwlService.Proofs.Json.RoundTrip
import CwlService.Proofs.Outcome
import CwlService.Proofs.Rpc.Frames
import CwlService.Rpc.Connection

/-! # What is sent arrives

The values that one connection sends are those that another receives from its output, in the
same order, each out of its own frame. Sending succeeds for every value of JSON whose whole
numbers and text are not too long. -/
namespace CwlService.Rpc.Connection

open List
open Json Text

/-- Receives messages one after the other. -/
def receives : Nat → Link (List Node)
  | 0 => pure []
  | n + 1 => do
    let message ← receive
    let others ← receives n
    pure (message :: others)

/-- Whether a value has a text whose length can be given. -/
def IsSendable (n : Node) : Prop :=
  (∀ k ∈ integers n, IsShort k) ∧ ∀ body, text? n = some body → isLength body.length = true

/-! ## Sending -/

/-- The text of a message that is sent. -/
def body? (message : Node) : Option String :=
  (text? message).filter fun body => isLength body.length

theorem send_run (message : Node) (c : Connection) : (send message).run.run c =
    match body? message with
    | some body => (.ok (), { c with written := c.written ++ [body] })
    | none => (.error .notWritable, c) := by
  unfold send body?
  cases (text? message).filter fun body => isLength body.length <;> rfl

variable {n : Node} {values : List Node} {c : Connection} {bodies : List String} {body : String}
  {rest : List UInt8}

theorem isSome_body? (h : IsJson n) : (body? n).isSome = true ↔ IsSendable n := by
  rw [IsSendable, ← h.isSome_write? 0]
  unfold body? text?
  cases write? .compact 0 n <;> simp [Option.filter]

theorem sendAll_run {w} : (values.forM send).run.run c = (.ok (), w) ↔
      ∃ bodies, values.map body? = bodies.map some ∧ w = { c with written := c.written ++ bodies } := by
  induction values generalizing c with
  | nil =>
    have hrun : (([] : List Node).forM send).run.run c = (.ok (), c) := rfl
    rw [hrun]
    constructor
    · rintro ⟨⟩
      exact ⟨[], rfl, by rw [append_nil]⟩
    · rintro ⟨bodies, hbodies, rfl⟩
      rw [map_eq_nil_iff.mp hbodies.symm, append_nil]
  | cons v values ih =>
    have hsend := send_run v c
    have hcons : (v :: values).forM send = send v >>= fun _ => values.forM send := rfl
    rw [hcons]
    cases hbody : body? v with
    | none =>
      rw [hbody] at hsend
      rw [run_bind_error hsend, map_cons, hbody]
      constructor
      · rintro ⟨⟩
      · rintro ⟨bodies, hbodies, _⟩
        cases bodies with
        | nil => cases hbodies
        | cons body bodies => simp at hbodies
    | some body =>
      rw [hbody] at hsend
      rw [run_bind hsend, ih, map_cons, hbody]
      constructor
      · rintro ⟨bodies, hbodies, rfl⟩
        exact ⟨body :: bodies, by rw [hbodies]; rfl, by rw [append_assoc]; rfl⟩
      · rintro ⟨bodies, hbodies, rfl⟩
        obtain ⟨_, others, rfl, heq, hothers⟩ := map_eq_cons_iff.mp hbodies.symm
        cases heq
        exact ⟨others, hothers.symm, by rw [append_assoc]; rfl⟩

theorem isSome_of_mem (h : values.map body? = bodies.map some) {v} (hv : v ∈ values) :
    (body? v).isSome = true := by
  have hmem : body? v ∈ bodies.map some := h ▸ mem_map_of_mem hv
  obtain ⟨body, _, hbody⟩ := mem_map.mp hmem
  rw [← hbody, Option.isSome_some]

theorem map_body? (h : ∀ v ∈ values, (body? v).isSome = true) :
    values.map body? = (values.filterMap body?).map some := by
  induction values with
  | nil => rfl
  | cons v values ih =>
    obtain ⟨body, hbody⟩ := Option.isSome_iff_exists.mp (h v mem_cons_self)
    rw [map_cons, filterMap_cons_some hbody, map_cons, hbody, ih fun v hv => h v (mem_cons_of_mem _ hv)]

theorem sendAll_isOk : ((values.forM send).run.run c).1 = .ok () ↔ ∀ v ∈ values, (body? v).isSome = true := by
  constructor
  · intro hok v hv
    obtain ⟨bodies, hbodies, _⟩ := sendAll_run.mp (Prod.ext hok rfl)
    exact isSome_of_mem hbodies hv
  · intro hsome
    rw [sendAll_run.mpr ⟨_, map_body? hsome, rfl⟩]

theorem text?_of_body? (h : values.map body? = bodies.map some) : values.map text? = bodies.map some := by
  rw [← h]
  refine map_congr_left fun v hv => ?_
  obtain ⟨body, hbody⟩ := Option.isSome_iff_exists.mp (isSome_of_mem h hv)
  rw [hbody, (Option.filter_eq_some_iff.mp hbody).1]

/-! ## Receiving -/

theorem bodyMessage_text? (h : IsJson n) (hbody : text? n = some body) :
    bodyMessage (bytes body) = .ok n := by
  rw [bodyMessage, ofBytes?_bytes]
  simp only [h.read_text? hbody]
  rfl

/-- The stream of bodies in their frames. -/
def framed (bodies : List String) : List UInt8 := bytes (String.join (bodies.map frame))

theorem framed_cons (body : String) (bodies : List String) :
    framed (body :: bodies) = bytes (frame body) ++ framed bodies := by
  rw [framed, map_cons, String.join_cons, bytes_append]
  rfl

theorem receive_of_frame (h : Rpc.receive c.stream = (.ok n, rest)) :
    receive.run.run c = (.ok n, { c with stream := rest }) := by
  rw [receive, run_get_bind, h]
  rfl

theorem receive_of_fault {f} (h : Rpc.receive c.stream = (.error f, rest)) :
    receive.run.run c = (.error (.frame f), { c with stream := rest }) := by
  rw [receive, run_get_bind, h]
  rfl

theorem receive_run (h : IsJson n) (hbody : body? n = some body) (bodies) (c : Connection) :
    receive.run.run { c with stream := framed (body :: bodies) } =
      (.ok n, { c with stream := framed bodies }) := by
  obtain ⟨htext, hlength⟩ := Option.filter_eq_some_iff.mp hbody
  refine receive_of_frame ?_
  rw [framed_cons, receive_frame (h.spells 0 body htext).ascii hlength, bodyMessage_text? h htext]

theorem receives_run (h : ∀ v ∈ values, IsJson v) (hbodies : values.map body? = bodies.map some) {k}
    (hk : k ≤ values.length) (c : Connection) : (receives k).run.run { c with stream := framed bodies } =
      (.ok (values.take k), { c with stream := framed (bodies.drop k) }) := by
  induction k generalizing values bodies with
  | zero => rfl
  | succ k ih =>
    obtain ⟨v, values, rfl⟩ := exists_cons_of_length_pos (Nat.lt_of_lt_of_le (Nat.succ_pos k) hk)
    obtain ⟨body, others, rfl, hbody, hothers⟩ := map_eq_cons_iff.mp hbodies.symm
    have hfirst := receive_run (h v mem_cons_self) hbody.symm others c
    have hrest := ih (fun v hv => h v (mem_cons_of_mem _ hv)) hothers.symm (Nat.le_of_succ_le_succ hk)
    rw [receives, run_bind hfirst, run_bind hrest]
    rfl

theorem receive_ended (c : Connection) : receive.run.run { c with stream := [] } =
    (.error (.frame .ended), { c with stream := [] }) := rfl

/-! ## Exchanging -/

/-- Values of JSON are sent exactly if each has a text whose length can be given. If they are,
a connection that reads what was written receives them one by one; after each, the frames of
the others are left, and after the last, nothing. -/
theorem receives_sent {values : List Node} (hvalues : ∀ v ∈ values, IsJson v)
    (sender receiver : Connection) (hsender : sender.written = []) :
    (((values.forM send).run.run sender).1 = .ok () ↔ ∀ v ∈ values, IsSendable v) ∧
    ∀ w, (values.forM send).run.run sender = (.ok (), w) →
      values.map text? = w.written.map some ∧
      (∀ k ≤ values.length,
        (receives k).run.run { receiver with stream := bytes w.output } =
          (.ok (values.take k),
            { receiver with stream := bytes (String.join ((w.written.drop k).map frame)) })) ∧
      (receives values.length >>= fun _ => receive).run.run
          { receiver with stream := bytes w.output } =
        (.error (.frame .ended), { receiver with stream := [] }) := by
  refine ⟨?_, fun w hsent => ?_⟩
  · rw [sendAll_isOk]
    exact forall₂_congr fun v hv => isSome_body? (hvalues v hv)
  · obtain ⟨bodies, hbodies, rfl⟩ := sendAll_run.mp hsent
    rw [hsender, nil_append]
    have hlength := congrArg length hbodies
    rw [length_map, length_map] at hlength
    have hall := receives_run hvalues hbodies (Nat.le_refl _) receiver
    rw [hlength, drop_length] at hall
    refine ⟨text?_of_body? hbodies, fun k hk => receives_run hvalues hbodies hk receiver, ?_⟩
    rw [hlength]
    exact (run_bind hall).trans (receive_ended receiver)

/-- An object in an object with characters of every plane, an array, and a number. -/
def sampleMessages : List Node := [
  .record [("id", .num (-17)),
    ("params", .record [("text", .str "a\x7f\"\\\r\né€😀"), ("\x00", .list [])])],
  .list [.null, .bool true, .record [], .str ""],
  .num 1000000]

theorem isJson_sample : ∀ v ∈ sampleMessages, IsJson v := by
  have hparams : IsJson (.record [("text", .str "a\x7f\"\\\r\né€😀"), ("\x00", .list [])]) := by
    refine .record (by decide) (by decide) ?_
    simp only [forall_mem_cons]
    exact ⟨.str (by decide), .list (by simp), by simp⟩
  simp only [sampleMessages, forall_mem_cons]
  refine ⟨.record (by decide) (by decide) ?_, .list ?_, .num _, by simp⟩
  · simp only [forall_mem_cons]
    exact ⟨.num _, hparams, by simp⟩
  · simp only [forall_mem_cons]
    exact ⟨.null, .bool _, .record (by decide) (by simp) (by simp), .str (by decide), by simp⟩

theorem receives_sent_sample : ∃ w,
    (sampleMessages.forM send).run.run { stream := [] } = (.ok (), w) ∧
    (∀ v ∈ sampleMessages, IsJson v ∧ IsSendable v) ∧
    (receives 2).run.run { stream := bytes w.output } = (.ok (sampleMessages.take 2),
      { stream := bytes (String.join ((w.written.drop 2).map frame)) }) ∧
    (receives 3 >>= fun _ => receive).run.run { stream := bytes w.output } =
      (.error (.frame .ended), { stream := [] }) := by
  have hsent : ((sampleMessages.forM send).run.run { stream := [] }).1 = .ok () :=
    sendAll_isOk.mpr (by decide +kernel)
  obtain ⟨hsendable, hreceived⟩ := receives_sent isJson_sample { stream := [] } { stream := [] } rfl
  have hall := hsendable.mp hsent
  rcases hw : (sampleMessages.forM send).run.run { stream := [] } with ⟨outcome, w⟩
  rw [hw] at hsent
  cases hsent
  obtain ⟨_, htake, hended⟩ := hreceived w hw
  exact ⟨w, rfl, fun v hv => ⟨isJson_sample v hv, hall v hv⟩,
    htake 2 (by decide), hended⟩

end CwlService.Rpc.Connection
