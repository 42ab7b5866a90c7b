import CwlService.Proofs.Rpc.Threads

/-! # What the steps of a batch keep

A plan is a batch with all that the other side is going to send. Whatever happened, the numbers in
the queue are those of the requests that were announced and not looked for, each answer has arrived
once or is still to come, and the messages that were kept and those that are to be read are what
arrived, without the answers that the caller has got. -/
namespace CwlService.Rpc

open Connection
open List

/-! ## Plans -/

/-- The messages of requests, which are numbered in their order. -/
def numbered (id : Nat) : List (Node × Node) → List Node
  | [] => []
  | (method, params) :: requests => request id method params :: numbered (id + 1) requests

theorem length_numbered (id : Nat) (requests : List (Node × Node)) :
    (numbered id requests).length = requests.length := by
  induction requests generalizing id with
  | nil => rfl
  | cons r requests ih => rw [numbered, length_cons, length_cons, ih]

theorem numbered_drop (id n : Nat) (requests : List (Node × Node)) :
    (numbered id requests).drop n = numbered (id + n) (requests.drop n) := by
  induction requests generalizing id n with
  | nil => rw [drop_nil]; exact drop_nil
  | cons r requests ih =>
    cases n with
    | zero => rfl
    | succ n => rw [numbered, drop_succ_cons, drop_succ_cons, ih, Nat.add_right_comm, Nat.add_assoc]

/-- A batch over a connection and what the other side sends: an answer to each request, and
messages that are none. A message is an answer if its number is equal to that of the request as
equality of data goes, so that `true` is 1 and `1.0` is. -/
structure Plan where
  kept : List Node
  nextId : Nat
  written : List String
  requests : List (Node × Node)
  answer : Nat → Delivery
  others : List Delivery
  isObject_kept : ∀ m ∈ kept, m.isMap = true
  /-- Every request has a text. -/
  isSome_body? : ∀ m ∈ numbered nextId requests, (body? m).isSome = true
  wants_answer : ∀ id, nextId ≤ id → id < nextId + requests.length →
    (Call.answer id).wants (answer id).message = true
  wants_other : ∀ id, nextId ≤ id → id < nextId + requests.length →
    ∀ m ∈ kept ++ others.map Delivery.message, (Call.answer id).wants m = false

variable {m : Node}

namespace Plan

def start (p : Plan) : Batch where
  connection := { stream := [], kept := p.kept, nextId := p.nextId, written := p.written }
  todo := p.requests
  others := p.others

/-- The texts of the requests. -/
def bodies (p : Plan) : List String := (numbered p.nextId p.requests).filterMap body?

theorem body?_requests (p : Plan) : (numbered p.nextId p.requests).map body? = p.bodies.map some :=
  map_body? p.isSome_body?

/-- The answers to the first requests. -/
def answers (p : Plan) (n : Nat) : List Node :=
  (range' p.nextId n).map fun id => (p.answer id).message

/-- Whether a message answers one of the first requests. -/
def isAnswer (p : Plan) (n : Nat) (m : Node) : Bool :=
  (range' p.nextId n).any fun id => (Call.answer id).wants m

/-- The messages without the answers to the first requests. -/
def left (p : Plan) (n : Nat) (ms : List Node) : List Node := ms.filter fun m => !p.isAnswer n m

@[simp] theorem left_zero (p : Plan) (ms : List Node) : p.left 0 ms = ms :=
  filter_eq_self.mpr fun _ _ => rfl

theorem isAnswer_succ (p : Plan) (n : Nat) (m : Node) :
    p.isAnswer (n + 1) m = (p.isAnswer n m || (Call.answer (p.nextId + n : Nat)).wants m) := by
  rw [isAnswer, range'_1_concat, any_append, any_cons, any_nil, Bool.or_false]
  rfl

theorem left_succ (p : Plan) (n : Nat) (ms : List Node) : p.left (n + 1) ms =
    (p.left n ms).filter fun m => !(Call.answer (p.nextId + n : Nat)).wants m := by
  rw [left, left, filter_filter]
  refine filter_congr fun m _ => ?_
  rw [isAnswer_succ, Bool.not_or, Bool.and_comm]

theorem isAnswer_eq_false {p : Plan} {n} : p.isAnswer n m = false ↔
    ∀ id, p.nextId ≤ id → id < p.nextId + n → (Call.answer id).wants m = false := by
  simp [isAnswer, mem_range'_1]

end Plan

theorem eraseP_eq_filter {α : Type} {q : α → Bool} {l : List α} (h : (l.filter q).length ≤ 1) :
    l.eraseP q = l.filter fun a => !q a := by
  induction l with
  | nil => rfl
  | cons a l ih =>
    cases ha : q a with
    | true =>
      rw [filter_cons_of_pos ha, length_cons] at h
      have hzero : (l.filter q).length = 0 := by omega
      have hnone := filter_eq_nil_iff.mp (eq_nil_of_length_eq_zero hzero)
      rw [eraseP_cons_of_pos ha, filter_cons_of_neg (by simp [ha]), filter_eq_self.mpr (by simpa using hnone)]
    | false =>
      rw [filter_cons_of_neg (by simp [ha])] at h
      rw [eraseP_cons_of_neg (by simp [ha]), filter_cons_of_pos (by simp [ha]), ih h]

/-! ## The invariant -/

/-- How many steps the thread has taken since it wrote a request. -/
def Sender.phase : Sender → Nat
  | .free | .failed _ => 0
  | .numbered .. | .ended => 1
  | .announced .. => 2

/-- How many steps the caller has taken since it got an answer, if it did not wait. -/
def Reader.phase : Reader → Nat
  | .free | .failed _ => 0
  | .looking _ | .ended => 1
  | .waiting _ => 2

namespace Batch

/-- How many numbers were put into the queue. -/
def put (b : Batch) : Nat :=
  match b.sender with
  | .announced .. => b.sent + 1
  | _ => b.sent

/-- How many numbers were taken out of the queue. -/
def got (b : Batch) : Nat :=
  match b.reader with
  | .looking _ | .waiting _ => b.yielded.length + 1
  | _ => b.yielded.length

/-- The caller looks for the answer to a request. -/
def Seeks (b : Batch) (id : Nat) : Prop := b.reader = .looking id ∨ b.reader = .waiting id

/-- What stands in the queue after the numbers. -/
def closing (b : Batch) : List (Option Nat) :=
  match b.sender with
  | .ended =>
    match b.reader with
    | .ended => []
    | _ => [none]
  | _ => []

/-- Every step adds to this: three go for a request that is sent, one for a message that arrives,
one for a message that is received, and two for a number that is taken and looked for. -/
def progress (b : Batch) : Nat :=
  3 * b.sent + b.sender.phase + b.arrived.length + (b.connection.kept.length + b.yielded.length) +
    2 * b.yielded.length + b.reader.phase

end Batch

namespace Plan

/-- Where the sending thread is. -/
def SenderAt (p : Plan) (b : Batch) : Prop :=
  match b.sender with
  | .free => b.connection.nextId = p.nextId + b.sent ∧ p.requests.drop b.sent = b.todo
  | .numbered id method params | .announced id method params =>
    b.connection.nextId = p.nextId + b.sent + 1 ∧ id = p.nextId + b.sent ∧
      p.requests.drop b.sent = (method, params) :: b.todo
  | .ended => b.connection.nextId = p.nextId + b.sent ∧ b.sent = p.requests.length
  | .failed _ => False

/-- Where the caller is. -/
def ReaderAt (p : Plan) (b : Batch) : Prop :=
  match b.reader with
  | .free | .ended => True
  | .looking id => id = p.nextId + b.yielded.length
  | .waiting id => id = p.nextId + b.yielded.length ∧
      ∀ m ∈ b.connection.kept, (Call.answer id).wants m = false
  | .failed _ => False

/-- The answer to a request, if that was written and is not unanswered. -/
def answered (p : Plan) (sent : Nat) (unanswered : List Nat) (id : Nat) : List Delivery :=
  if id < p.nextId + sent ∧ id ∉ unanswered then [p.answer id] else []

theorem answered_written (p : Plan) (sent : Nat) (unanswered : List Nat) (id : Nat) :
    p.answered (sent + 1) (unanswered ++ [p.nextId + sent]) id = p.answered sent unanswered id := by
  have hiff : (id < p.nextId + (sent + 1) ∧ id ∉ unanswered ++ [p.nextId + sent]) ↔
      (id < p.nextId + sent ∧ id ∉ unanswered) := by
    rw [mem_append, mem_singleton, not_or]
    constructor
    · rintro ⟨hlt, hmem, hne⟩
      exact ⟨by omega, hmem⟩
    · rintro ⟨hlt, hmem⟩
      exact ⟨by omega, hmem, by omega⟩
  simp only [answered, hiff]

/-- All messages that there are up to now. -/
def messages (p : Plan) (b : Batch) : List Node := p.kept ++ b.arrived.map Delivery.message

/-- What holds of a batch after a number of steps. -/
structure Invariant (p : Plan) (steps : Nat) (b : Batch) : Prop where
  sender : p.SenderAt b
  sent_le : b.sent ≤ p.requests.length
  written : b.connection.written = p.written ++ p.bodies.take b.sent
  reader : p.ReaderAt b
  ended : b.reader = .ended → b.sender = .ended ∧ b.yielded.length = p.requests.length
  yielded : b.yielded = p.answers b.yielded.length
  yielded_le : b.yielded.length ≤ b.sent
  /-- The queue holds the numbers that were put into it and not taken out, in their order. -/
  queue : ∃ n, b.put = b.got + n ∧
    b.queue = (range' (p.nextId + b.got) n).map some ++ b.closing
  nodup : b.unanswered.Nodup
  unanswered : ∀ id ∈ b.unanswered, p.nextId + b.yielded.length ≤ id ∧ id < p.nextId + b.sent
  /-- Each answer has arrived once, or is still to come. -/
  arrived_answers : ∀ id, p.nextId ≤ id → id < p.nextId + p.requests.length →
    b.arrived.filter (fun d => (Call.answer id).wants d.message) =
      p.answered b.sent b.unanswered id
  arrived_others : p.others =
    b.arrived.filter (fun d => !p.isAnswer p.requests.length d.message) ++ b.others
  arrived_length : b.arrived.length + b.unanswered.length + b.others.length = b.sent + p.others.length
  /-- What is kept and what is still to be read are the messages without the answers that were
  given to the caller. -/
  undelivered : ∃ coming : List Delivery, b.connection.stream = coming.flatMap Delivery.bytes ∧
    b.connection.kept ++ coming.map Delivery.message = p.left b.yielded.length (p.messages b) ∧
    b.connection.kept.length + coming.length + b.yielded.length = p.kept.length + b.arrived.length
  progress : steps + p.kept.length ≤ b.progress

theorem invariant_start (p : Plan) : p.Invariant 0 p.start where
  sender := ⟨rfl, rfl⟩
  sent_le := Nat.zero_le _
  written := by simp [start]
  reader := trivial
  ended := nofun
  yielded := rfl
  yielded_le := Nat.le_refl _
  queue := ⟨0, rfl, rfl⟩
  nodup := nodup_nil
  unanswered := by simp [start]
  arrived_answers := fun id hid _ => (if_neg fun h => Nat.not_lt.mpr hid h.1).symm
  arrived_others := rfl
  arrived_length := by simp [start]
  undelivered := ⟨[], rfl, by simp [start, messages], by simp [start]⟩
  progress := by simp [start, Batch.progress, Sender.phase, Reader.phase]

namespace Invariant

variable {p : Plan} {steps : Nat} {b b' : Batch}

variable {todo : List (Node × Node)} {method params : Node} {id : Nat} {d : Delivery}

/-! ### The sending thread -/

theorem sent_lt {r} (hdrop : p.requests.drop b.sent = r :: todo) :
    b.sent < p.requests.length := by
  refine Nat.lt_of_not_le fun hle => ?_
  rw [drop_eq_nil_of_le hle] at hdrop
  cases hdrop

theorem body?_next {sent} (hdrop : p.requests.drop sent = (method, params) :: todo) :
    ∃ body, body? (request (p.nextId + sent) method params) = some body ∧
      p.bodies.take (sent + 1) = p.bodies.take sent ++ [body] := by
  have hbodies := congrArg (drop sent) p.body?_requests
  rw [← map_drop, ← map_drop, numbered_drop, hdrop] at hbodies
  obtain ⟨body, rest, hrest, hbody, _⟩ := map_eq_cons_iff.mp hbodies.symm
  refine ⟨body, hbody.symm, ?_⟩
  have hget : p.bodies[sent]? = some body := by
    rw [← head?_drop, hrest]
    rfl
  rw [take_add_one, hget]
  rfl

theorem answers_succ (n) : p.answers (n + 1) = p.answers n ++ [(p.answer (p.nextId + n)).message] := by
  rw [answers, range'_1_concat, map_append]
  rfl

theorem isObject_messages (b : Batch) : ∀ m ∈ p.messages b, m.isMap = true := by
  intro m hm
  obtain hm | hm := mem_append.mp hm
  · exact p.isObject_kept m hm
  · obtain ⟨d, _, rfl⟩ := mem_map.mp hm
    exact d.isObject

variable (h : p.Invariant steps b)

include h

theorem put_le : b.put ≤ p.requests.length := by
  have hsender := h.sender
  unfold Batch.put
  unfold SenderAt at hsender
  split
  · rename_i hb
    simp only [hb] at hsender
    exact sent_lt hsender.2.2
  · exact h.sent_le

theorem reader_ne_ended (hsender : b.sender ≠ .ended) : b.reader ≠ .ended :=
  fun hreader => hsender (h.ended hreader).1

-- One lemma for each step of the thread: where it is says which branch it takes, and the fields of
-- the invariant that the step does not touch are carried over.

theorem numbers (hsender : b.sender = .free)
    (htodo : b.todo = (method, params) :: todo) : p.Invariant (steps + 1) { b with
      connection := { b.connection with nextId := b.connection.nextId + 1 }
      todo, sender := .numbered b.connection.nextId method params } := by
  have hat := h.sender
  have hqueue := h.queue
  have hprogress := h.progress
  simp only [SenderAt, hsender, htodo] at hat
  simp only [Batch.put, Batch.closing, hsender] at hqueue
  simp only [Batch.progress, Sender.phase, hsender] at hprogress
  exact { h with
    sender := ⟨congrArg (· + 1) hat.1, hat.1, hat.2⟩
    ended := fun hreader => absurd hreader (h.reader_ne_ended (by simp [hsender]))
    queue := hqueue
    progress := by
      simp only [Batch.progress, Sender.phase]
      omega }

theorem closes (hsender : b.sender = .free) (htodo : b.todo = []) :
    p.Invariant (steps + 1) { b with queue := b.queue ++ [none], sender := .ended } := by
  have hat := h.sender
  have hopen := h.reader_ne_ended (by simp [hsender])
  obtain ⟨n, hput, hqueue⟩ := h.queue
  have hprogress := h.progress
  simp only [SenderAt, hsender, htodo] at hat
  simp only [Batch.put, hsender] at hput
  simp only [Batch.closing, hsender, append_nil] at hqueue
  simp only [Batch.progress, Sender.phase, hsender] at hprogress
  exact { h with
    sender := ⟨hat.1, Nat.le_antisymm h.sent_le (drop_eq_nil_iff.mp hat.2)⟩
    ended := fun hreader => absurd hreader hopen
    queue := by
      refine ⟨n, hput, ?_⟩
      rw [hqueue]
      simp only [Batch.closing]
      rfl
    progress := by
      simp only [Batch.progress, Sender.phase]
      omega }

theorem announces (hsender : b.sender = .numbered id method params) : p.Invariant (steps + 1) { b with
      queue := b.queue ++ [some id], sender := .announced id method params } := by
  have hat := h.sender
  obtain ⟨n, hput, hqueue⟩ := h.queue
  have hprogress := h.progress
  simp only [SenderAt, hsender] at hat
  simp only [Batch.put, hsender] at hput
  simp only [Batch.closing, hsender, append_nil] at hqueue
  simp only [Batch.progress, Sender.phase, hsender] at hprogress
  have hid : id = p.nextId + b.got + n := by omega
  exact { h with
    sender := hat
    ended := fun hreader => absurd hreader (h.reader_ne_ended (by simp [hsender]))
    queue := by
      refine ⟨n + 1, congrArg (· + 1) hput, ?_⟩
      rw [hqueue, hid]
      simp [Batch.closing, Batch.got, List.range'_1_concat]
    progress := by
      simp only [Batch.progress, Sender.phase]
      omega }

theorem writes (hsender : b.sender = .announced id method params) {body}
    (hbody : p.bodies.take (b.sent + 1) = p.bodies.take b.sent ++ [body]) : p.Invariant (steps + 1) { b with
      connection := { b.connection with written := b.connection.written ++ [body] }
      sender := .free, sent := b.sent + 1, unanswered := b.unanswered ++ [id] } := by
  have hat := h.sender
  have hqueue := h.queue
  have hprogress := h.progress
  simp only [SenderAt, hsender] at hat
  simp only [Batch.put, Batch.closing, hsender] at hqueue
  simp only [Batch.progress, Sender.phase, hsender] at hprogress
  obtain ⟨hnext, rfl, hdrop⟩ := hat
  have hunanswered : p.nextId + b.sent ∉ b.unanswered := fun hmem => by
    have hbounds := h.unanswered _ hmem
    omega
  exact { h with
    sender := ⟨hnext, by rw [← drop_drop, hdrop]; rfl⟩
    sent_le := sent_lt hdrop
    written := by rw [hbody, h.written, append_assoc]
    ended := fun hreader => absurd hreader (h.reader_ne_ended (by simp [hsender]))
    queue := hqueue
    yielded_le := Nat.le_succ_of_le h.yielded_le
    nodup := by
      refine nodup_append.mpr ⟨h.nodup, by simp, fun id hid other hother => ?_⟩
      rw [mem_singleton.mp hother]
      rintro rfl
      exact hunanswered hid
    unanswered := fun id hid => by
      obtain hid | hid := mem_append.mp hid
      · have hbounds := h.unanswered id hid
        dsimp only
        omega
      · have hle := h.yielded_le
        rw [mem_singleton] at hid
        dsimp only
        omega
    arrived_answers := fun id hle hlt => by
      rw [h.arrived_answers id hle hlt]
      exact (answered_written p _ _ id).symm
    arrived_length := by
      have hlength := h.arrived_length
      simp only [length_append, length_singleton]
      omega
    progress := by
      simp only [Batch.progress, Sender.phase]
      omega }

theorem sends (hstep : b.sends? = some b') : p.Invariant (steps + 1) b' := by
  unfold Batch.sends? at hstep
  split at hstep
  · rename_i hsender
    split at hstep
    · rename_i htodo
      cases hstep
      exact h.numbers hsender htodo
    · rename_i htodo
      obtain ⟨_, hb⟩ := Option.ite_none_right_eq_some.mp hstep
      cases hb
      exact h.closes hsender htodo
  · rename_i hsender
    obtain ⟨_, hb⟩ := Option.ite_none_right_eq_some.mp hstep
    cases hb
    exact h.announces hsender
  · rename_i id method params hsender
    have hat := h.sender
    simp only [SenderAt, hsender] at hat
    obtain ⟨_, rfl, hdrop⟩ := hat
    obtain ⟨body, hbody, hbodies⟩ := body?_next hdrop
    rw [send_run, hbody] at hstep
    cases hstep
    exact h.writes hsender hbodies
  · cases hstep
  · cases hstep

/-! ### The other side -/

/-- A message that arrives is not among those that were given to the caller. -/
theorem delivers (hd : p.isAnswer b.yielded.length d.message = false) :
    ∃ coming : List Delivery, (b.deliver d).connection.stream = coming.flatMap Delivery.bytes ∧
      (b.deliver d).connection.kept ++ coming.map Delivery.message =
        p.left b.yielded.length (p.messages (b.deliver d)) ∧
      (b.deliver d).connection.kept.length + coming.length + b.yielded.length =
        p.kept.length + (b.deliver d).arrived.length := by
  obtain ⟨coming, hstream, hmessages, hlength⟩ := h.undelivered
  refine ⟨coming ++ [d], ?_, ?_, ?_⟩
  · rw [flatMap_append, ← hstream]
    simp [Batch.deliver]
  · have hleft : p.left b.yielded.length (p.messages (b.deliver d)) =
        p.left b.yielded.length (p.messages b) ++ [d.message] := by
      simp [messages, Batch.deliver, left, hd]
    rw [hleft, ← hmessages]
    simp [Batch.deliver]
  · simp only [Batch.deliver, length_append, length_singleton]
    omega

theorem answers (hid : id ∈ b.unanswered) :
    p.Invariant (steps + 1) { b.deliver (p.answer id) with unanswered := b.unanswered.erase id } := by
  obtain ⟨hge, hlt⟩ := h.unanswered id hid
  have hsent := h.sent_le
  have hprogress := h.progress
  have hwants := p.wants_answer id (by omega) (by omega)
  have hother : ∀ other, other ≠ id → (Call.answer other).wants (p.answer id).message = false := by
    intro other hne
    exact Bool.eq_false_iff.mpr fun hwants' => hne (wants_unique hwants' hwants)
  exact { h with
    nodup := h.nodup.erase id
    unanswered := fun other hmem => h.unanswered other (mem_of_mem_erase hmem)
    arrived_answers := fun other hle hlt' => by
      simp only [Batch.deliver, filter_append, h.arrived_answers other hle hlt']
      by_cases hne : other = id
      · subst hne
        rw [answered, answered, if_neg fun hanswered => hanswered.2 hid, if_pos ⟨hlt, h.nodup.not_mem_erase⟩]
        simp [hwants]
      · rw [filter_cons_of_neg (by simp [hother other hne])]
        simp only [answered, mem_erase_of_ne hne, filter_nil, append_nil]
    arrived_others := by
      have hanswer : p.isAnswer p.requests.length (p.answer id).message = true :=
        any_eq_true.mpr ⟨id, mem_range'_1.mpr ⟨by omega, by omega⟩, hwants⟩
      simp only [Batch.deliver, filter_append, filter_cons, hanswer]
      simpa using h.arrived_others
    arrived_length := by
      have hlength := h.arrived_length
      have hpos := length_pos_of_mem hid
      simp only [Batch.deliver, length_append, length_singleton, length_erase_of_mem hid]
      omega
    undelivered := h.delivers (isAnswer_eq_false.mpr fun other hle hlt' => hother other (by omega))
    progress := by
      simp only [Batch.progress, Batch.deliver, length_append, length_singleton] at hprogress ⊢
      omega }

theorem others {others} (hothers : b.others = d :: others) :
    p.Invariant (steps + 1) { b.deliver d with others } := by
  have hprogress := h.progress
  have hd : d ∈ p.others := by rw [h.arrived_others, hothers]; simp
  have hwants := fun id hle hlt =>
    p.wants_other id hle hlt _ (mem_append_right _ (mem_map_of_mem hd))
  exact { h with
    arrived_answers := fun id hle hlt => by
      simp [Batch.deliver, hwants id hle hlt, h.arrived_answers id hle hlt]
    arrived_others := by
      have hanswer := isAnswer_eq_false.mpr hwants
      have harrived := h.arrived_others
      rw [hothers] at harrived
      simpa [Batch.deliver, hanswer] using harrived
    arrived_length := by
      have hlength := h.arrived_length
      rw [hothers, length_cons] at hlength
      simp only [Batch.deliver, length_append, length_singleton]
      omega
    undelivered := h.delivers (isAnswer_eq_false.mpr fun id hle hlt =>
      hwants id hle (by have := h.yielded_le; have := h.sent_le; omega))
    progress := by
      simp only [Batch.progress, Batch.deliver, length_append, length_singleton] at hprogress ⊢
      omega }

/-! ### The caller -/

/-- The messages with the number of a request are its answer, once it arrived. -/
theorem filter_messages (hle : p.nextId ≤ id)
    (hlt : id < p.nextId + p.requests.length) : (p.messages b).filter (Call.answer id).wants =
      (p.answered b.sent b.unanswered id).map Delivery.message := by
  have hkept : p.kept.filter (Call.answer id).wants = [] := filter_eq_nil_iff.mpr fun m hm => by
    simp [p.wants_other id hle hlt m (mem_append_left _ hm)]
  have harrived := h.arrived_answers id hle hlt
  rw [messages, filter_append, hkept, nil_append, filter_map]
  simp only [Function.comp_def, harrived]

theorem wanted_iff (hle : p.nextId ≤ id) (hlt : id < p.nextId + p.requests.length) :
    m ∈ p.messages b ∧ (Call.answer id).wants m = true ↔
      (id < p.nextId + b.sent ∧ id ∉ b.unanswered) ∧ m = (p.answer id).message := by
  rw [← mem_filter, h.filter_messages hle hlt, answered]
  split <;> simp_all

theorem eraseP_left {n} (hn : n < p.requests.length) :
    (p.left n (p.messages b)).eraseP (Call.answer (p.nextId + n : Nat)).wants = p.left (n + 1) (p.messages b) := by
  rw [left_succ]
  refine eraseP_eq_filter ?_
  have hle := (filter_sublist.filter (Call.answer (p.nextId + n : Nat)).wants :
    Sublist ((p.left n (p.messages b)).filter _) ((p.messages b).filter _)).length_le
  rw [h.filter_messages (Nat.le_add_right _ _) (by omega), length_map, answered] at hle
  split at hle
  · exact hle
  · exact Nat.le_succ_of_le hle

theorem queue_of_seeks (hreader : b.Seeks id) :
    id = p.nextId + b.yielded.length ∧ ∃ n, b.put = b.yielded.length + 1 + n ∧
      b.queue = (List.range' (p.nextId + (b.yielded.length + 1)) n).map some ++ Batch.closing
        { b with reader := .waiting id } := by
  have hat := h.reader
  have hqueue := h.queue
  obtain hreader | hreader := hreader
  · simp only [ReaderAt, hreader] at hat
    simp only [Batch.got, Batch.closing, hreader] at hqueue
    exact ⟨hat, hqueue⟩
  · simp only [ReaderAt, hreader] at hat
    simp only [Batch.got, Batch.closing, hreader] at hqueue
    exact ⟨hat.1, hqueue⟩

theorem yields {id} (hreader : b.Seeks id) {m} (hm : m ∈ p.left b.yielded.length (p.messages b))
    (hwants : (Call.answer id).wants m = true) {kept} {coming : List Delivery}
    (hleft : kept ++ coming.map Delivery.message =
      (p.left b.yielded.length (p.messages b)).eraseP (Call.answer id).wants)
    (hprogress : b.progress < Batch.progress { b with
      connection := { b.connection with stream := coming.flatMap Delivery.bytes, kept }
      reader := .free, yielded := b.yielded ++ [m] }) :
    p.Invariant (steps + 1) { b with
      connection := { b.connection with stream := coming.flatMap Delivery.bytes, kept }
      reader := .free, yielded := b.yielded ++ [m] } := by
  have hput := h.put_le
  have hsteps := h.progress
  obtain ⟨coming', _, hundelivered, hlength⟩ := h.undelivered
  obtain ⟨rfl, n, hnumbers, hqueue⟩ := h.queue_of_seeks hreader
  obtain ⟨⟨hsent, hanswered⟩, rfl⟩ := (h.wanted_iff (Nat.le_add_right _ _) (by omega)).mp
    ⟨(mem_filter.mp hm).1, hwants⟩
  exact { h with
    reader := trivial
    ended := nofun
    yielded := by
      rw [length_append, length_singleton, answers_succ, ← h.yielded]
    yielded_le := by
      rw [length_append, length_singleton]
      dsimp only
      omega
    queue := by
      refine ⟨n, ?_, ?_⟩
      · rw [Batch.got, length_append, length_singleton]
        exact hnumbers
      · rw [Batch.got, length_append, length_singleton]
        exact hqueue
    unanswered := fun other hother => by
      have hbounds := h.unanswered other hother
      have hne : other ≠ p.nextId + b.yielded.length := fun heq => hanswered (heq ▸ hother)
      rw [length_append, length_singleton]
      dsimp only
      omega
    undelivered := by
      have hcount := congrArg length hleft
      rw [length_eraseP_of_mem hm hwants, ← hundelivered] at hcount
      have hpos := length_pos_of_mem hm
      rw [← hundelivered] at hpos
      simp only [length_append, length_map] at hcount hpos
      refine ⟨coming, rfl, ?_, ?_⟩
      · rw [hleft, h.eraseP_left (by omega), length_append, length_singleton]
        rfl
      · rw [length_append, length_singleton]
        dsimp only
        omega
    progress := by omega }

theorem waits {id} (hreader : b.Seeks id) {kept} {coming : List Delivery}
    (hkept : ∀ m ∈ kept, (Call.answer id).wants m = false)
    (hleft : kept ++ coming.map Delivery.message = p.left b.yielded.length (p.messages b))
    (hprogress : b.progress < Batch.progress { b with
      connection := { b.connection with stream := coming.flatMap Delivery.bytes, kept }
      reader := .waiting id }) :
    p.Invariant (steps + 1) { b with
      connection := { b.connection with stream := coming.flatMap Delivery.bytes, kept }
      reader := .waiting id } := by
  have hsteps := h.progress
  obtain ⟨coming', _, hundelivered, hlength⟩ := h.undelivered
  obtain ⟨hid, hqueue⟩ := h.queue_of_seeks hreader
  exact { h with
    reader := ⟨hid, hkept⟩
    ended := nofun
    queue := hqueue
    undelivered := by
      have hcount := congrArg length (hleft.trans hundelivered.symm)
      simp only [length_append, length_map] at hcount
      exact ⟨coming, rfl, hleft, by dsimp only; omega⟩
    progress := by omega }

theorem looks (hreader : b.reader = .looking id) :
    p.Invariant (steps + 1) (b.looked id ((lookFor id).run.run b.connection)) := by
  obtain ⟨coming, hstream, hundelivered, hlength⟩ := h.undelivered
  have hobjects : ∀ m ∈ b.connection.kept, m.isMap = true := fun m hm =>
    isObject_messages b m (mem_filter.mp (hundelivered ▸ mem_append_left _ hm)).1
  rw [lookFor_run hobjects, hstream]
  cases hfound : b.connection.kept.find? (Call.answer id).wants with
  | some m =>
    have hmem := mem_of_find?_eq_some hfound
    have hwants := List.find?_some hfound
    refine h.yields (.inl hreader) (hundelivered ▸ mem_append_left _ hmem) hwants ?_ ?_
    · rw [← hundelivered, eraseP_append_left hwants _ hmem]
    · have hpos := length_pos_of_mem hmem
      simp only [Batch.progress, Reader.phase, hreader, length_append, length_singleton,
        length_eraseP_of_mem hmem hwants]
      omega
  | none =>
    have hnone := List.find?_eq_none.mp hfound
    rw [eraseP_of_forall_not hnone]
    refine h.waits (.inl hreader) (by simpa using hnone) hundelivered ?_
    simp only [Batch.progress, Reader.phase, hreader]
    omega

theorem receives {id} (hreader : b.reader = .waiting id) (hstream : b.connection.stream ≠ []) :
    p.Invariant (steps + 1) (b.looked id ((receiveFor id).run.run b.connection)) := by
  obtain ⟨coming, hcoming, hundelivered, hlength⟩ := h.undelivered
  have hat := h.reader
  simp only [ReaderAt, hreader] at hat
  cases coming with
  | nil => exact absurd hcoming hstream
  | cons d coming =>
    rw [flatMap_cons] at hcoming
    rw [receiveFor_run hcoming]
    cases hwants : (Call.answer id).wants d.message with
    | true =>
      refine h.yields (.inr hreader) (hundelivered ▸ by simp) hwants ?_ ?_
      · rw [← hundelivered, eraseP_append_right _ (by simpa using hat.2), map_cons, eraseP_cons_of_pos hwants]
      · simp only [Batch.progress, Reader.phase, hreader, length_append, length_singleton]
        omega
    | false =>
      refine h.waits (.inr hreader) ?_ (by simpa using hundelivered) ?_
      · intro m hm
        obtain hm | hm := mem_append.mp hm
        · exact hat.2 m hm
        · rw [mem_singleton.mp hm]
          exact hwants
      · simp only [Batch.progress, Reader.phase, hreader, length_append, length_singleton]
        omega

theorem takes (hreader : b.reader = .free) {queue} (hqueue : b.queue = some id :: queue) :
    p.Invariant (steps + 1) { b with queue, reader := .looking id } := by
  have hprogress := h.progress
  simp only [Batch.progress, Reader.phase, hreader] at hprogress
  obtain ⟨n, hput, hnumbers⟩ := h.queue
  simp only [Batch.got, hreader] at hput
  simp only [Batch.got, Batch.closing, hreader, hqueue] at hnumbers
  cases n with
  | zero => split at hnumbers <;> cases hnumbers
  | succ n =>
    obtain ⟨hid, hrest⟩ := cons.inj hnumbers
    have hcount : b.put = b.yielded.length + 1 + n := by omega
    exact { h with
      reader := Option.some.inj hid
      ended := nofun
      queue := ⟨n, hcount, hrest⟩
      progress := by
        simp only [Batch.progress, Reader.phase]
        omega }

theorem ends (hreader : b.reader = .free) {queue} (hqueue : b.queue = none :: queue) :
    p.Invariant (steps + 1) { b with queue, reader := .ended } := by
  have hprogress := h.progress
  simp only [Batch.progress, Reader.phase, hreader] at hprogress
  obtain ⟨n, hput, hnumbers⟩ := h.queue
  simp only [Batch.got, hreader] at hput
  simp only [Batch.got, Batch.closing, hreader, hqueue] at hnumbers
  cases n with
  | zero =>
    have hat := h.sender
    split at hnumbers
    · rename_i hsender
      simp only [SenderAt, hsender] at hat
      simp only [Batch.put, hsender] at hput
      exact { h with
        reader := trivial
        ended := fun _ => ⟨hsender, hput.symm.trans hat.2⟩
        queue := ⟨0, by simpa [Batch.put, Batch.got, hsender] using hput,
          by simpa [Batch.closing, hsender] using hnumbers⟩
        progress := by
          simp only [Batch.progress, Reader.phase]
          omega }
    · cases hnumbers
  | succ n => cases (cons.inj hnumbers).1

theorem reads (hstep : b.reads? = some b') : p.Invariant (steps + 1) b' := by
  unfold Batch.reads? at hstep
  split at hstep
  · rename_i hreader
    split at hstep
    · rename_i hqueue
      cases hstep
      exact h.takes hreader hqueue
    · rename_i hqueue
      cases hstep
      exact h.ends hreader hqueue
    · cases hstep
  · rename_i hreader
    cases hstep
    exact h.looks hreader
  · rename_i hreader
    obtain ⟨hstream, hb⟩ := Option.ite_none_left_eq_some.mp hstep
    cases hb
    exact h.receives hreader (by simpa using hstream)
  · cases hstep
  · cases hstep

theorem step (hstep : b.Step p.answer b') : p.Invariant (steps + 1) b' := by
  cases hstep with
  | sends hb => exact h.sends hb
  | reads hb => exact h.reads hb
  | answers hid => exact h.answers hid
  | others hothers => exact h.others hothers

end Invariant

theorem invariant_of_steps {p : Plan} {steps b} (h : p.start.Steps p.answer steps b) :
    p.Invariant steps b := by
  induction h with
  | start => exact p.invariant_start
  | step _ hstep ih => exact ih.step hstep

end Plan
end CwlService.Rpc
