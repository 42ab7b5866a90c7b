import CwlService.Proofs.Rpc.Exchange

/-! # A connection is a queue

Messages that were passed over are kept, and the others are still in the stream. Together
they are one queue: a call takes the oldest message that it wants, from wherever it is, and
leaves the others as they are. A call that wants none of them reads the stream to its end;
then all of them are kept. -/
namespace CwlService.Rpc

open List

/-! ## Messages of a stream -/

/-- The messages that come over a stream, one after the other, until it ends. -/
inductive Arrives : List UInt8 → List Node → Prop where
  | ended : Arrives [] []
  | message {stream rest m ms} (hm : receive stream = (.ok m, rest)) (hms : Arrives rest ms) : Arrives stream (m :: ms)

theorem splitLine_eq_append (stream : List UInt8) :
    (splitLine stream).1 ++ (splitLine stream).2 = stream := by
  induction stream with
  | nil => rfl
  | cons b rest ih =>
    rw [splitLine]
    split
    · rfl
    · simpa using ih

theorem skipHeader_length (line : String) (lines : Nat) (stream : List UInt8) :
    (skipHeader line lines stream).2.length ≤ stream.length := by
  induction lines generalizing line stream with
  | zero => exact Nat.le_refl _
  | succ lines ih =>
    have hsplit : (splitLine stream).2.length ≤ stream.length := by
      have hlength := congrArg length (splitLine_eq_append stream)
      rw [length_append] at hlength
      omega
    rw [skipHeader]
    split
    · exact Nat.le_refl _
    · split
      · rename_i rest hrest
        rwa [hrest] at hsplit
      · rename_i rest _ hrest
        rw [hrest] at hsplit
        split
        · exact hsplit
        · exact Nat.le_trans (ih _ rest) hsplit

theorem splitBody_length_le (length : Option Int) (stream : List UInt8) :
    (splitBody length stream).2.length ≤ stream.length := by
  unfold splitBody
  split
  · split
    · exact Nat.zero_le _
    · simp
  · exact Nat.zero_le _

theorem receive_length {stream} (h : stream ≠ []) :
    (receive stream).2.length < stream.length := by
  have hlength := congrArg length (splitLine_eq_append stream)
  rw [length_append] at hlength
  unfold receive
  split
  · rename_i rest hsplit
    obtain ⟨b, bs, rfl⟩ := exists_cons_of_ne_nil h
    rw [splitLine] at hsplit
    split at hsplit <;> cases hsplit
  · rename_i bytes after hne hsplit
    simp only [hsplit] at hlength
    have hpos : 0 < bytes.length := length_pos_iff.mpr hne
    split
    · dsimp only
      omega
    · rename_i line _
      split
      · dsimp only
        omega
      · rename_i length _
        have hheader := skipHeader_length line (after.length + 2) after
        split
        · rename_i hskip
          rw [hskip] at hheader
          dsimp only at hheader ⊢
          omega
        · rename_i body hskip
          rw [hskip] at hheader
          dsimp only at hheader
          have hbody := splitBody_length_le length body
          split
          · dsimp only
            omega
          · dsimp only
            omega

variable {m : Node} {ms : List Node}

theorem ne_nil_of_receive {stream rest} (h : receive stream = (.ok m, rest)) : stream ≠ [] := by
  rintro rfl
  cases h

theorem Arrives.length_le {stream} (h : Arrives stream ms) : ms.length ≤ stream.length := by
  induction h with
  | ended => exact Nat.le_refl _
  | message hm hms ih =>
    have hrest := receive_length (ne_nil_of_receive hm)
    rw [hm] at hrest
    exact Nat.lt_of_le_of_lt ih hrest

namespace Connection

theorem arrives_framed {values} (h : ∀ v ∈ values, Json.IsJson v) {bodies}
    (hbodies : values.map body? = bodies.map some) : Arrives (framed bodies) values := by
  induction values generalizing bodies with
  | nil =>
    rw [map_eq_nil_iff.mp hbodies.symm]
    exact .ended
  | cons v values ih =>
    obtain ⟨body, others, rfl, hbody, hothers⟩ := map_eq_cons_iff.mp hbodies.symm
    obtain ⟨htext, hlength⟩ := Option.filter_eq_some_iff.mp hbody.symm
    have hv := h v mem_cons_self
    refine .message ?_ (ih (fun v hv => h v (mem_cons_of_mem _ hv)) hothers.symm)
    rw [framed_cons, receive_frame (hv.spells 0 body htext).ascii hlength, bodyMessage_text? hv htext]

/-! ## Calls -/

/-- A call for a message: for the next one, or for the answer to a request. -/
inductive Call where
  | next
  | answer (id : Int)
deriving DecidableEq, Repr

namespace Call

/-- Whether a message is one that the call waits for. -/
def wants : Call → Node → Bool
  | .next, _ => true
  | .answer id, m => ((m.field? "id").getD .null).same (.num id)

/-- What the call does with a connection. -/
def read : Call → Link Node
  | .next => Connection.read
  | .answer id => readWanted (.num id)

end Call

/-- What a call gives that finds a message, or none up to the end of the stream. -/
def outcome : Option Node → Except ConnectionFault Node
  | some m => .ok m
  | none => .error (.frame .ended)

/-- Makes calls one after the other, also after one that failed. -/
def perform : List Call → Connection → List (Except ConnectionFault Node) × Connection
  | [], c => ([], c)
  | call :: calls, c =>
    let (r, c) := call.read.run.run c
    let (rs, c) := perform calls c
    (r :: rs, c)

/-- The same calls on a queue: each takes the first message that it wants. -/
def performOn : List Call → List Node → List (Option Node) × List Node
  | [], queue => ([], queue)
  | call :: calls, queue =>
    let (ms, queue') := performOn calls (queue.eraseP call.wants)
    (queue.find? call.wants :: ms, queue')

/-! ## One call -/

theorem hasId_eq (h : m.isMap = true) (id) : hasId (.num id) m = .ok ((Call.answer id).wants m) := by
  cases m with
  | map form es => rfl
  | _ => cases h

theorem truthy_of_wants (hm : m.isMap = true) {id} (h : (Call.answer id).wants m = true) :
    m.truthy = true := by
  cases m with
  | map form es =>
    cases es with
    | nil => simp [Call.wants, Node.field?, Node.Entries.field?, Node.same, Node.number?] at h
    | cons e es => rfl
  | _ => cases hm

variable {queue : List Node} {c : Connection}

theorem rotateLeft_append (front back : List Node) :
    (front ++ back).rotateLeft front.length = back ++ front := by
  cases front <;> cases back <;> simp (disch := omega) [List.rotateLeft, Nat.mod_eq_of_lt]

theorem rotateRight_append (front back : List Node) :
    (front ++ back).rotateRight back.length = back ++ front := by
  have hsub : ∀ m n : Nat, m + (n + 1) - n = m + 1 := by omega
  cases front <;> cases back <;> simp (disch := omega) [List.rotateRight, Nat.mod_eq_of_lt, hsub]

/-- A message is taken away from between the others, which keep their order. -/
theorem takeAt_length (front : List Node) (m : Node) (back : List Node) :
    takeAt (front ++ m :: back) front.length = some (m, front ++ back) := by
  rw [takeAt, rotateLeft_append]
  exact congrArg (fun others => some (m, others)) (rotateRight_append back front)

theorem keptAt?_eq (h : ∀ m ∈ queue, m.isMap = true) (id : Int) :
    keptAt? (.num id) queue = .ok (queue.findIdx? (Call.answer id).wants) := by
  induction queue with
  | nil => rfl
  | cons m rest ih =>
    rw [forall_mem_cons] at h
    rw [keptAt?, hasId_eq h.1, ih h.2, findIdx?_cons]
    cases (Call.answer id).wants m <;> rfl

theorem takeKept_eq (h : ∀ m ∈ queue, m.isMap = true) (id : Int) :
    takeKept (.num id) queue = .ok ((queue.find? (Call.answer id).wants).map fun m =>
      (m, queue.eraseP (Call.answer id).wants)) := by
  rw [takeKept, keptAt?_eq h]
  refine congrArg Except.ok ?_
  cases hfind : queue.find? (Call.answer id).wants with
  | none =>
    rw [findIdx?_eq_none_iff.mpr fun m hm => by simpa using find?_eq_none.mp hfind m hm]
    rfl
  | some m =>
    obtain ⟨hm, front, back, rfl, hfront⟩ := find?_eq_some_iff_append.mp hfind
    have hnone : ∀ a ∈ front, (Call.answer id).wants a = false := by simpa using hfront
    have hplace : (front ++ m :: back).findIdx? (Call.answer id).wants = some front.length := by
      rw [findIdx?_append, findIdx?_eq_none_iff.mpr hnone, findIdx?_cons, if_pos hm]
      simp
    rw [hplace, eraseP_append_right _ (by simpa using hfront), eraseP_cons_of_pos hm]
    exact takeAt_length front m back

/-- Waiting for an answer keeps the messages before it, or all of them if there is none. -/
theorem receiveWanted_run (hms : ∀ m ∈ ms, m.isMap = true) (id : Int) (hc : Arrives c.stream ms)
    {messages} (hmessages : ms.length < messages) :
    ∃ stream passed left, (receiveWanted (.num id) messages).run.run c =
        (outcome (ms.find? (Call.answer id).wants), { c with stream, kept := c.kept ++ passed }) ∧
      Arrives stream left ∧ passed ++ left = ms.eraseP (Call.answer id).wants := by
  induction ms generalizing c messages with
  | nil =>
    obtain ⟨messages, rfl⟩ := Nat.exists_eq_add_one.mpr (Nat.zero_lt_of_lt hmessages)
    obtain ⟨stream, kept, nextId, written⟩ := c
    cases hc
    refine ⟨[], [], [], ?_, .ended, rfl⟩
    have hended := receive_ended { stream := [], kept, nextId, written }
    rw [receiveWanted, run_bind_error hended, append_nil]
    rfl
  | cons m ms ih =>
    rw [forall_mem_cons] at hms
    obtain ⟨messages, rfl⟩ := Nat.exists_eq_add_one.mpr (Nat.zero_lt_of_lt hmessages)
    obtain ⟨stream, kept, nextId, written⟩ := c
    cases hc with
    | message hm hrest =>
      rename_i rest
      have hreceive := receive_of_frame hm
      have hid : ∀ d : Connection, (liftM (hasId (.num id) m) : Link Bool).run.run d =
          (.ok ((Call.answer id).wants m), d) := by
        intro d
        rw [hasId_eq hms.1]
        rfl
      rw [receiveWanted, run_bind hreceive, run_bind (hid _)]
      cases hwants : (Call.answer id).wants m with
      | true =>
        refine ⟨rest, [], ms, ?_, hrest, ?_⟩
        · rw [find?_cons_of_pos hwants, append_nil]
          rfl
        · rw [eraseP_cons_of_pos hwants, nil_append]
      | false =>
        have hkeep : (modify fun c => { c with kept := c.kept ++ [m] } : Link Unit).run.run
            { stream := rest, kept, nextId, written } =
              (.ok (), { stream := rest, kept := kept ++ [m], nextId, written }) := rfl
        obtain ⟨stream, passed, left, hrun, hstream, heq⟩ := ih hms.2
          (c := { stream := rest, kept := kept ++ [m], nextId, written }) hrest
          (Nat.lt_of_succ_lt_succ hmessages)
        refine ⟨stream, m :: passed, left, ?_, hstream, ?_⟩
        · rw [find?_cons_of_neg (by simp [hwants])]
          simp only [Bool.false_eq_true, if_false]
          rw [run_bind hkeep, hrun, append_assoc]
          rfl
        · rw [eraseP_cons_of_neg (by simp [hwants]), ← heq, cons_append]

/-- The messages that were not delivered, all of them objects: those that are kept and then
those that are still to come. -/
def Undelivered (c : Connection) (queue : List Node) : Prop :=
  (∃ arriving, Arrives c.stream arriving ∧ queue = c.kept ++ arriving) ∧
    ∀ m ∈ queue, m.isMap = true

theorem undelivered_erase {left} (p : Node → Bool) (hobjects : ∀ m ∈ queue, m.isMap = true)
    (hleft : Arrives c.stream left) (heq : c.kept ++ left = queue.eraseP p) :
    Undelivered c (queue.eraseP p) :=
  ⟨⟨left, hleft, heq.symm⟩, fun m hm => hobjects m (mem_of_mem_eraseP hm)⟩

theorem read_run (h : Undelivered c queue) :
    ∃ c', Connection.read.run.run c = (outcome (queue.find? Call.next.wants), c') ∧
      Undelivered c' (queue.eraseP Call.next.wants) := by
  obtain ⟨⟨arriving, harrives, rfl⟩, hobjects⟩ := h
  obtain ⟨stream, kept, nextId, written⟩ := c
  cases kept with
  | cons m kept =>
    exact ⟨{ stream, kept, nextId, written }, rfl, undelivered_erase _ hobjects harrives rfl⟩
  | nil =>
    cases harrives with
    | ended => exact ⟨_, rfl, undelivered_erase _ hobjects .ended rfl⟩
    | message hm hms =>
      rename_i rest m ms
      exact ⟨{ stream := rest, kept := [], nextId, written }, receive_of_frame hm,
        undelivered_erase _ hobjects hms rfl⟩

theorem readWanted_run (h : Undelivered c queue) (id) : ∃ c', (readWanted (.num id)).run.run c =
        (outcome (queue.find? (Call.answer id).wants), c') ∧
      Undelivered c' (queue.eraseP (Call.answer id).wants) := by
  obtain ⟨⟨arriving, harrives, rfl⟩, hobjects⟩ := h
  have hkept : ∀ m ∈ c.kept, m.isMap = true := fun m hm => hobjects m (mem_append_left _ hm)
  have harriving : ∀ m ∈ arriving, m.isMap = true := fun m hm => hobjects m (mem_append_right _ hm)
  rw [readWanted, run_get_bind, takeKept_eq hkept, run_lift_bind]
  cases hfound : c.kept.find? (Call.answer id).wants with
  | some m =>
    have hwants := find?_some hfound
    have hmem := mem_of_find?_eq_some hfound
    refine ⟨{ c with kept := c.kept.eraseP (Call.answer id).wants }, ?_, undelivered_erase _ hobjects harrives ?_⟩
    · rw [find?_append, hfound]
      simp only [Option.map_some, truthy_of_wants (hkept m hmem) hwants]
      rfl
    · rw [eraseP_append_left hwants _ hmem]
  | none =>
    obtain ⟨stream, passed, left, hrun, hstream, heq⟩ := receiveWanted_run harriving id harrives
      (Nat.lt_succ_of_le harrives.length_le)
    refine ⟨{ c with stream, kept := c.kept ++ passed }, ?_, undelivered_erase _ hobjects hstream ?_⟩
    · rw [find?_append, hfound, Option.none_or]
      exact hrun
    · rw [eraseP_append_right _ (by simpa using find?_eq_none.mp hfound), ← heq, append_assoc]

/-- A call takes the oldest message that it wants, or fails at the end of the stream if there
is none; the other messages stay in their order. -/
theorem call_run (h : Undelivered c queue) (call : Call) :
    ∃ c', call.read.run.run c = (outcome (queue.find? call.wants), c') ∧
      Undelivered c' (queue.eraseP call.wants) := by
  cases call with
  | next => exact read_run h
  | answer id => exact readWanted_run h id

/-! ## Many calls -/

theorem perform_run (h : Undelivered c queue) (calls : List Call) :
    ∃ c', perform calls c = ((performOn calls queue).1.map outcome, c') ∧
      Undelivered c' (performOn calls queue).2 := by
  induction calls generalizing c queue with
  | nil => exact ⟨c, rfl, h⟩
  | cons call calls ih =>
    obtain ⟨d, hcall, hd⟩ := call_run h call
    obtain ⟨c', hcalls, hc'⟩ := ih hd
    refine ⟨c', ?_, hc'⟩
    simp only [perform, hcall, hcalls, performOn, map_cons]

theorem performOn_next (queue : List Node) :
    performOn (replicate queue.length .next) queue = (queue.map some, []) := by
  induction queue with
  | nil => rfl
  | cons m queue ih =>
    have hrest : (m :: queue).eraseP Call.next.wants = queue := rfl
    rw [length_cons, replicate_succ, performOn, hrest, ih]
    rfl

theorem perform_next (h : Undelivered c queue) :
    (perform (replicate queue.length .next) c).1 = queue.map .ok := by
  obtain ⟨c', hperform, _⟩ := perform_run h (replicate queue.length .next)
  rw [hperform, performOn_next, map_map]
  rfl

theorem performOn_perm (calls : List Call) (queue : List Node) :
    ((performOn calls queue).1.filterMap id ++ (performOn calls queue).2).Perm queue := by
  induction calls generalizing queue with
  | nil => exact .refl _
  | cons call calls ih =>
    have hrest := ih (queue.eraseP call.wants)
    cases hfound : queue.find? call.wants with
    | none =>
      have hall := find?_eq_none.mp hfound
      rw [eraseP_of_forall_not hall] at hrest
      simpa [performOn, hfound, eraseP_of_forall_not hall] using hrest
    | some m =>
      obtain ⟨hwants, before, after, rfl, hbefore⟩ := find?_eq_some_iff_append.mp hfound
      have herase : (before ++ m :: after).eraseP call.wants = before ++ after := by
        rw [eraseP_append_right _ (by simpa using hbefore), eraseP_cons_of_pos hwants]
      rw [herase] at hrest
      simp only [performOn, hfound, herase]
      exact (hrest.cons m).trans perm_middle.symm

theorem performOn_sublist (calls : List Call) (queue : List Node) :
    (performOn calls queue).2.Sublist queue := by
  induction calls generalizing queue with
  | nil => exact .refl _
  | cons call calls ih => exact (ih _).trans eraseP_sublist

/-- A connection over which objects arrive is a queue of those that it keeps and those that
are to come: calls give what they give on that queue and leave what they leave there. So what
was delivered and what is left is what there was, and what is left is in its old order. -/
theorem perform_refines_queue {c : Connection} {arriving : List Node}
    (harrives : Arrives c.stream arriving) (hobjects : ∀ m ∈ c.kept ++ arriving, m.isMap = true)
    (calls : List Call) :
    ∃ c' delivered arriving', perform calls c = (delivered.map outcome, c') ∧
      Arrives c'.stream arriving' ∧
      performOn calls (c.kept ++ arriving) = (delivered, c'.kept ++ arriving') ∧
      (delivered.filterMap id ++ (c'.kept ++ arriving')).Perm (c.kept ++ arriving) ∧
      (c'.kept ++ arriving').Sublist (c.kept ++ arriving) := by
  have hqueue : Undelivered c (c.kept ++ arriving) := ⟨⟨arriving, harrives, rfl⟩, hobjects⟩
  obtain ⟨c', hrun, ⟨arriving', harrives', hleft⟩, _⟩ := perform_run hqueue calls
  refine ⟨c', _, arriving', hrun, harrives', Prod.ext rfl hleft, ?_, ?_⟩
  · rw [← hleft]
    exact performOn_perm calls _
  · rw [← hleft]
    exact performOn_sublist calls _

/-- A notification, an empty object, and two answers, of which the second came first. -/
def sampleArrivals : List Node := [
  .record [("method", .str "log"), ("params", .list [.null])],
  .record [],
  .record [("id", .num 2), ("result", .str "é")],
  .record [("id", .num 1), ("result", .bool true)]]

/-- Both answers are waited for, in the order of the requests, and one that never comes; then
the other two messages are read, and there is nothing more. -/
def sampleCalls : List Call := [.answer 1, .answer 2, .answer 3, .next, .next, .next]

theorem perform_refines_queue_sample : ∃ bodies c',
    sampleArrivals.map body? = bodies.map some ∧
    Arrives (framed bodies) sampleArrivals ∧ (∀ m ∈ sampleArrivals, m.isMap = true) ∧
    perform sampleCalls { stream := framed bodies } =
      ([sampleArrivals[3]?, sampleArrivals[2]?, none, sampleArrivals[0]?, sampleArrivals[1]?,
        none].map outcome, c') ∧ c'.kept = [] := by
  have hjson : ∀ v ∈ sampleArrivals, Json.IsJson v := by
    simp only [sampleArrivals, forall_mem_cons]
    refine ⟨.record (by decide) (by decide) ?_, .record (by decide) (by simp) (by simp),
      .record (by decide) (by decide) ?_, .record (by decide) (by decide) ?_, by simp⟩
    all_goals simp only [forall_mem_cons]
    · exact ⟨.str (by decide), .list (by simp [Json.IsJson.null]), by simp⟩
    · exact ⟨.num _, .str (by decide), by simp⟩
    · exact ⟨.num _, .bool _, by simp⟩
  obtain ⟨bodies, hbodies⟩ : ∃ bodies : List String, sampleArrivals.map body? = bodies.map some :=
    ⟨_, map_body? (by decide +kernel)⟩
  have harrives := arrives_framed hjson hbodies
  have hobjects : ∀ m ∈ sampleArrivals, m.isMap = true := by decide
  obtain ⟨c', delivered, arriving', hrun, _, hqueue, _⟩ :=
    perform_refines_queue (c := { stream := framed bodies }) harrives hobjects sampleCalls
  have hdelivered : performOn sampleCalls sampleArrivals = ([sampleArrivals[3]?, sampleArrivals[2]?,
      none, sampleArrivals[0]?, sampleArrivals[1]?, none], []) := by
    with_unfolding_all rfl
  obtain ⟨rfl, hleft⟩ := Prod.ext_iff.mp (hqueue.symm.trans hdelivered)
  exact ⟨bodies, c', hbodies, harrives, hobjects, hrun, (append_eq_nil_iff.mp hleft).1⟩

end Connection
end CwlService.Rpc
