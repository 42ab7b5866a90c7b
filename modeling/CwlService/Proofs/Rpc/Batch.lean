import CwlService.Proofs.Rpc.BatchInvariant

/-! # A batch gives the answers in order

However the steps of a batch are mixed, nobody waits for ever, and the answers come in the order of
the requests. The other messages are left in the order in which they came, and so all is as if the
requests had been sent first and the answers read then. -/
namespace CwlService.Rpc

open Connection
open List

namespace Plan
variable {id n steps : Nat} {p : Plan} {b : Batch} {c : Connection}

namespace Invariant

variable {p : Plan} {steps : Nat} {b : Batch}

/-- The thread does not wait before it writes. -/
theorem sends_of_announced {method params} (hsender : b.sender = .announced id method params) :
    ∃ b', b.sends? = some b' := by
  rw [Batch.sends?, hsender]
  dsimp only
  split <;> exact ⟨_, rfl⟩

variable (h : p.Invariant steps b)

include h

/-! ## The number of steps -/

theorem sender_phase_le : 3 * b.sent + b.sender.phase ≤ 3 * p.requests.length + 1 := by
  have hat := h.sender
  have hsent := h.sent_le
  cases hsender : b.sender with
  | numbered id method params | announced id method params =>
    simp only [SenderAt, hsender] at hat
    have hlt := sent_lt hat.2.2
    simp only [Sender.phase]
    omega
  | _ =>
    simp only [Sender.phase]
    omega

theorem reader_phase_le : 2 * b.yielded.length + b.reader.phase ≤ 2 * p.requests.length + 1 := by
  have hput := h.put_le
  obtain ⟨n, hnumbers, _⟩ := h.queue
  cases hreader : b.reader with
  | looking id | waiting id =>
    simp only [Batch.got, hreader] at hnumbers
    simp only [Reader.phase]
    omega
  | _ =>
    simp only [Batch.got, hreader] at hnumbers
    simp only [Reader.phase]
    omega

theorem steps_le : steps ≤ 7 * p.requests.length + 2 * p.others.length + 2 := by
  have hprogress := h.progress
  have hsent := h.sent_le
  have hsender := h.sender_phase_le
  have hreader := h.reader_phase_le
  have harrived := h.arrived_length
  obtain ⟨coming, _, _, hlength⟩ := h.undelivered
  unfold Batch.progress at hprogress
  omega

/-! ## Nobody waits for ever -/

theorem sends_of_room (hroom : b.queue.length < capacity) (hended : b.sender ≠ .ended) : ∃ b', b.sends? = some b' := by
  cases hsender : b.sender with
  | free =>
    rw [Batch.sends?, hsender]
    dsimp only
    split
    · exact ⟨_, rfl⟩
    · exact ⟨_, if_pos hroom⟩
  | numbered id method params =>
    rw [Batch.sends?, hsender]
    exact ⟨_, if_pos hroom⟩
  | announced id method params => exact sends_of_announced hsender
  | ended => contradiction
  | failed f =>
    have hat := h.sender
    simp only [SenderAt, hsender] at hat

theorem mem_left (hn : n < p.requests.length)
    (hsent : p.nextId + n < p.nextId + b.sent) (hanswered : p.nextId + n ∉ b.unanswered) :
    (p.answer (p.nextId + n)).message ∈ p.left n (p.messages b) ∧
      (Call.answer (p.nextId + n : Nat)).wants (p.answer (p.nextId + n)).message = true := by
  obtain ⟨hmem, hwants⟩ := (h.wanted_iff (Nat.le_add_right _ _) (by omega)).mpr ⟨⟨hsent, hanswered⟩, rfl⟩
  refine ⟨mem_filter.mpr ⟨hmem, ?_⟩, hwants⟩
  -- an answer to an earlier request would have two numbers
  rw [isAnswer_eq_false.mpr fun id hle hlt => Bool.eq_false_iff.mpr fun hid => by
    have := wants_unique hid hwants
    omega]
  rfl

theorem continues_waiting (hreader : b.reader = .waiting id) : ∃ b', b.Step p.answer b' := by
  have hput := h.put_le
  have hat := h.reader
  simp only [ReaderAt, hreader] at hat
  obtain ⟨hid, n, hnumbers, _⟩ := h.queue_of_seeks (.inr hreader)
  obtain ⟨coming, hstream, hundelivered, _⟩ := h.undelivered
  cases coming with
  | cons d coming =>
    have hreads : b.reads? = some (b.looked id ((receiveFor id).run.run b.connection)) := by
      rw [Batch.reads?, hreader]
      refine if_neg ?_
      rw [List.isEmpty_iff, hstream, flatMap_cons, append_eq_nil_iff]
      exact fun hempty => d.bytes_ne_nil hempty.1
    exact ⟨_, .reads hreads⟩
  | nil =>
    subst hid
    by_cases hunanswered : p.nextId + b.yielded.length ∈ b.unanswered
    · exact ⟨_, .answers hunanswered⟩
    · by_cases hsent : b.yielded.length < b.sent
      · obtain ⟨hmem, hwants⟩ := h.mem_left (by omega) (Nat.add_lt_add_left hsent _) hunanswered
        rw [← hundelivered, map_nil, append_nil] at hmem
        rw [hat.2 _ hmem] at hwants
        cases hwants
      · -- the number was put into the queue, but the request is still to be written
        unfold Batch.put at hnumbers
        split at hnumbers
        · rename_i hsender
          obtain ⟨b', hb'⟩ := sends_of_announced hsender
          exact ⟨b', .sends hb'⟩
        · omega

/-- As long as the caller has not got to the end, something may happen. -/
theorem continues (hreader : b.reader ≠ .ended) : ∃ b', b.Step p.answer b' := by
  cases hat : b.reader with
  | free =>
    cases hqueue : b.queue with
    | nil =>
      have hsender : b.sender ≠ .ended := by
        intro hsender
        obtain ⟨n, _, hnumbers⟩ := h.queue
        simp [hqueue, Batch.closing, hsender, hat] at hnumbers
      obtain ⟨b', hb'⟩ := h.sends_of_room (by rw [hqueue]; decide) hsender
      exact ⟨b', .sends hb'⟩
    | cons id queue =>
      cases id with
      | none => exact ⟨_, .reads (by rw [Batch.reads?, hat, hqueue])⟩
      | some id => exact ⟨_, .reads (by rw [Batch.reads?, hat, hqueue])⟩
  | looking id => exact ⟨_, .reads (by rw [Batch.reads?, hat])⟩
  | waiting id => exact h.continues_waiting hat
  | ended => contradiction
  | failed f =>
    have hfailed := h.reader
    simp only [ReaderAt, hat] at hfailed

end Invariant

/-! ## What is left -/

/-- The other messages that arrived. -/
def passed (p : Plan) (b : Batch) : List Delivery :=
  b.arrived.filter fun d => !p.isAnswer p.requests.length d.message

theorem left_messages (p : Plan) (b : Batch) :
    p.left p.requests.length (p.messages b) = p.kept ++ (p.passed b).map Delivery.message := by
  have hkept : p.left p.requests.length p.kept = p.kept := filter_eq_self.mpr fun m hm => by
    rw [isAnswer_eq_false.mpr fun id hle hlt => p.wants_other id hle hlt m (mem_append_left _ hm)]
    rfl
  rw [left] at hkept
  rw [left, messages, filter_append, hkept, filter_map, passed]
  rfl

theorem undelivered_left (h : p.Invariant steps b) :
    Undelivered b.connection (p.left b.yielded.length (p.messages b)) := by
  obtain ⟨coming, hstream, hundelivered, _⟩ := h.undelivered
  refine ⟨⟨coming.map Delivery.message, ?_, hundelivered.symm⟩, fun m hm => ?_⟩
  · rw [hstream]
    exact Delivery.arrives coming
  · exact Invariant.isObject_messages b m (mem_filter.mp hm).1

/-! ## One after the other -/

theorem sendRequests_run {requests bodies}
    (h : (numbered c.nextId requests).map body? = bodies.map some) : (requests.mapM fun (method, params) => do
        let id ← sendRequest method params
        pure (id : Int) : Link (List Int)).run.run c =
      (.ok ((range' c.nextId requests.length).map (Nat.cast : Nat → Int)), { c with
        nextId := c.nextId + requests.length, written := c.written ++ bodies }) := by
  induction requests generalizing c bodies with
  | nil =>
    rw [map_eq_nil_iff.mp h.symm, append_nil]
    rfl
  | cons r requests ih =>
    obtain ⟨method, params⟩ := r
    obtain ⟨body, others, rfl, hbody, hothers⟩ := map_eq_cons_iff.mp h.symm
    have hsend : (do let id ← sendRequest method params; pure (id : Int) : Link Int).run.run c =
        (.ok (c.nextId : Int), { c with
          nextId := c.nextId + 1, written := c.written ++ [body] }) := by
      have hset : (set { c with nextId := c.nextId + 1 } : Link PUnit).run.run c =
          (.ok ⟨⟩, { c with nextId := c.nextId + 1 }) := rfl
      have hwrite := send_run (request c.nextId method params) { c with nextId := c.nextId + 1 }
      rw [← hbody] at hwrite
      rw [sendRequest, bind_assoc, run_get_bind, bind_assoc, run_bind hset, bind_assoc, run_bind hwrite]
      rfl
    have hrest := ih (c := { c with nextId := c.nextId + 1, written := c.written ++ [body] }) hothers.symm
    rw [mapM_cons, run_bind hsend, run_bind hrest, length_cons, append_assoc,
      Nat.add_right_comm, Nat.add_assoc]
    rfl

theorem find?_left (h : p.Invariant steps b) (hn : n < p.requests.length)
    (hsent : p.nextId + n < p.nextId + b.sent) (hanswered : p.nextId + n ∉ b.unanswered) :
    (p.left n (p.messages b)).find? (Call.answer (p.nextId + n : Nat)).wants =
      some (p.answer (p.nextId + n)).message := by
  obtain ⟨hmem, hwants⟩ := h.mem_left hn hsent hanswered
  obtain ⟨m, hm⟩ := Option.isSome_iff_exists.mp (find?_isSome.mpr ⟨_, hmem, hwants⟩)
  have hmessage := (mem_filter.mp (mem_of_find?_eq_some hm)).1
  rw [hm, ((h.wanted_iff (Nat.le_add_right _ _) (by omega)).mp ⟨hmessage, find?_some hm⟩).2]

theorem readAnswers_run (h : p.Invariant steps b) (hended : b.yielded.length = p.requests.length)
    {k} (hn : n + k = p.requests.length) (hc : Undelivered c (p.left n (p.messages b))) :
    ∃ c', (((range' (p.nextId + n) k).map (Nat.cast : Nat → Int)).mapM
        fun id => readWanted (.num id)).run.run c =
          (.ok ((range' (p.nextId + n) k).map fun id => (p.answer id).message), c') ∧
      Undelivered c' (p.left p.requests.length (p.messages b)) := by
  induction k generalizing n c with
  | zero =>
    obtain rfl : n = p.requests.length := hn
    exact ⟨c, rfl, hc⟩
  | succ k ih =>
    have hle := h.yielded_le
    have hanswered : p.nextId + n ∉ b.unanswered := fun hmem => by
      have hbounds := h.unanswered _ hmem
      omega
    obtain ⟨d, hread, hd⟩ := readWanted_run hc (p.nextId + n : Nat)
    rw [find?_left h (by omega) (by omega) hanswered] at hread
    rw [h.eraseP_left (by omega)] at hd
    obtain ⟨c', hrest, hc'⟩ := ih (n := n + 1) (by omega) hd
    refine ⟨c', ?_, hc'⟩
    rw [range'_succ, map_cons, mapM_cons, run_bind hread]
    rw [Nat.add_assoc, run_bind hrest]
    rfl

/-- The batch gives what it gives if the requests are sent first. -/
theorem callAll_run (h : p.Invariant steps b) (hended : b.yielded.length = p.requests.length) :
    ∃ c, (callAll p.requests).run.run
        { p.start.connection with stream := b.arrived.flatMap Delivery.bytes } = (.ok b.yielded, c) ∧
      Undelivered c (p.kept ++ (p.passed b).map Delivery.message) := by
  have hsend := sendRequests_run (c := { p.start.connection with stream := b.arrived.flatMap Delivery.bytes })
    p.body?_requests
  have hundelivered : Undelivered { p.start.connection with
      stream := b.arrived.flatMap Delivery.bytes
      nextId := p.nextId + p.requests.length, written := p.written ++ p.bodies }
      (p.left 0 (p.messages b)) := by
    rw [left_zero]
    exact ⟨⟨_, Delivery.arrives b.arrived, rfl⟩, Invariant.isObject_messages b⟩
  obtain ⟨c, hread, hc⟩ := readAnswers_run h hended (Nat.zero_add _) hundelivered
  refine ⟨c, ?_, left_messages p b ▸ hc⟩
  rw [callAll, run_bind hsend, h.yielded, hended]
  exact hread

/-! ## The batch as a whole -/

/-- What holds when the caller has got to the end of a batch. -/
structure Done (p : Plan) (b : Batch) : Prop where
  sender : b.sender = .ended
  written : b.connection.written = p.written ++ p.bodies
  yielded : b.yielded = p.answers p.requests.length
  others : p.others = p.passed b ++ b.others
  /-- The other messages are read then, in the order in which they came. -/
  left : (perform (replicate (p.kept ++ (p.passed b).map Delivery.message).length .next) b.connection).1 =
    (p.kept ++ (p.passed b).map Delivery.message).map .ok
  /-- It is the same if the requests are sent first and then their answers are read. -/
  sequential : ∃ c, (callAll p.requests).run.run
      { p.start.connection with stream := b.arrived.flatMap Delivery.bytes } = (.ok b.yielded, c) ∧
    (perform (replicate (p.kept ++ (p.passed b).map Delivery.message).length .next) c).1 =
      (p.kept ++ (p.passed b).map Delivery.message).map .ok

theorem Invariant.done (h : p.Invariant steps b) (hreader : b.reader = .ended) : p.Done b := by
  obtain ⟨hsender, hended⟩ := h.ended hreader
  have hat := h.sender
  simp only [SenderAt, hsender] at hat
  have hbodies : p.bodies.length = p.requests.length := by
    have hlength := congrArg length p.body?_requests
    rw [length_map, length_map, length_numbered] at hlength
    exact hlength.symm
  have hundelivered := undelivered_left h
  rw [hended, left_messages] at hundelivered
  obtain ⟨c, hcall, hc⟩ := callAll_run h hended
  exact {
    sender := hsender
    written := by rw [h.written, hat.2, ← hbodies, take_length]
    yielded := hended ▸ h.yielded
    others := h.arrived_others
    left := perform_next hundelivered
    sequential := ⟨c, hcall, perform_next hc⟩ }

/-- However the steps of a batch are mixed, there is an end to them. Nothing but the end of the batch
stops it; up to then the caller has got the first answers in the order of the requests, and then all. -/
theorem yields_answers {p : Plan} {steps : Nat} {b : Batch} (h : p.start.Steps p.answer steps b) :
    steps ≤ 7 * p.requests.length + 2 * p.others.length + 2 ∧
      b.yielded <+: p.answers p.requests.length ∧
      (b.reader = .ended ∨ ∃ b', b.Step p.answer b') ∧
      (b.reader = .ended → p.Done b) := by
  have hinv := invariant_of_steps h
  refine ⟨hinv.steps_le, ?_, ?_, hinv.done⟩
  · have hle := Nat.le_trans hinv.yielded_le hinv.sent_le
    rw [hinv.yielded, answers, answers, ← Nat.add_sub_cancel' hle, ← range'_append_1, map_append]
    exact prefix_append _ _
  · by_cases hreader : b.reader = .ended
    · exact .inl hreader
    · exact .inr (hinv.continues hreader)

/-- Every run can be continued up to the end. -/
theorem exists_ended (h : p.start.Steps p.answer steps b) :
    ∃ steps' b', p.start.Steps p.answer steps' b' ∧ b'.reader = .ended := by
  generalize hleft : 7 * p.requests.length + 2 * p.others.length + 2 - steps = left
  induction left generalizing steps b with
  | zero =>
    refine ⟨steps, b, h, Classical.byContradiction fun hreader => ?_⟩
    obtain ⟨b', hstep⟩ := (invariant_of_steps h).continues hreader
    have hle := (invariant_of_steps (h.step hstep)).steps_le
    omega
  | succ left ih =>
    by_cases hreader : b.reader = .ended
    · exact ⟨steps, b, h, hreader⟩
    · obtain ⟨b', hstep⟩ := (invariant_of_steps h).continues hreader
      exact ih (h.step hstep) (by omega)

def sampleAnswer (id : Nat) : Node :=
  if id = 1 then .record [("id", .num 1), ("result", .str "é")] else .record [("id", .num 2)]

theorem isJson_sampleAnswer (id : Nat) : Json.IsJson (sampleAnswer id) := by
  unfold sampleAnswer
  split
  · refine .record (by decide) (by decide) ?_
    simp only [forall_mem_cons]
    exact ⟨.num _, .str (by decide), by simp⟩
  · refine .record (by decide) (by decide) ?_
    simp only [forall_mem_cons]
    exact ⟨.num _, by simp⟩

theorem isSome_body?_sampleAnswer (id : Nat) : (body? (sampleAnswer id)).isSome = true := by
  unfold sampleAnswer
  split <;> decide +kernel

theorem wants_sampleAnswer (hle : 1 ≤ id) (hlt : id < 3) :
    (Call.answer id).wants (sampleAnswer id) = true := by
  obtain rfl | rfl : id = 1 ∨ id = 2 := by omega
  · decide +kernel
  · decide +kernel

def sampleNotice : Node := .record [("method", .str "log")]

theorem isJson_sampleNotice : Json.IsJson sampleNotice := by
  refine .record (by decide) (by decide) ?_
  simp only [forall_mem_cons]
  exact ⟨.str (by decide), by simp⟩

theorem isSome_body?_sampleNotice : (body? sampleNotice).isSome = true := by decide +kernel

theorem wants_sampleNotice (id) : ∀ m ∈ [.record [], sampleNotice], (Call.answer id).wants m = false := by
  simp only [forall_mem_cons]
  exact ⟨by with_unfolding_all rfl, by with_unfolding_all rfl, by simp⟩

theorem isSome_body?_sampleRequests :
    ∀ m ∈ numbered 1 [(.str "a", .null), (.str "b", .list [])], (body? m).isSome = true := by
  simp only [numbered, forall_mem_cons]
  exact ⟨by decide +kernel, by decide +kernel, by simp⟩

/-- Two requests and a notification, over a connection that has kept an empty object. -/
def sample : Plan where
  kept := [.record []]
  nextId := 1
  written := []
  requests := [(.str "a", .null), (.str "b", .list [])]
  answer id := .ofValue (sampleAnswer id) (isJson_sampleAnswer id)
    (by unfold sampleAnswer; split <;> rfl) (isSome_body?_sampleAnswer id)
  others := [.ofValue sampleNotice isJson_sampleNotice rfl isSome_body?_sampleNotice]
  isObject_kept := by decide
  isSome_body? := isSome_body?_sampleRequests
  wants_answer _ hle hlt := wants_sampleAnswer hle hlt
  wants_other id _ _ := wants_sampleNotice id

theorem yields_answers_sample : ∃ steps b, sample.start.Steps sample.answer steps b ∧ b.reader = .ended ∧
    steps ≤ 18 ∧ b.yielded = [sampleAnswer 1, sampleAnswer 2] := by
  obtain ⟨steps, b, hsteps, hreader⟩ := exists_ended (p := sample) .start
  obtain ⟨hle, _, _, hdone⟩ := yields_answers hsteps
  exact ⟨steps, b, hsteps, hreader, hle, (hdone hreader).yielded⟩

end Plan
end CwlService.Rpc
