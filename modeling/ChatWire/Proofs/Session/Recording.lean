import ChatWire.Proofs.Message.Counts
import ChatWire.Session
import Mathlib.Data.List.Induction

/-!
# What turns record

A turn that fails, or whose reply is withheld, leaves the conversation as it was. Any other turn
appends the sent message and the reply, and charges both (`Session.turn_records`). So whatever turns
are taken one after the other, the conversation grows by pairs of a message and its reply, and by
nothing else as long as its counts can be added up; where they cannot, recording overflows, and the
sent message is left without a reply (`Session.turns_record_pairs`).
-/

namespace ChatWire

/-- A pair that is appended leaves what was there, and charges the message and the reply. -/
theorem Conversation.appendReply_append (c : Conversation) (sent m : Message)
    (input output : UInt64) :
    (c.append sent).appendReply m input output = (totalTokens c.messages).map fun accounted =>
      ⟨c.messages ++ [{ sent with tokenCount := saturatingSub input accounted },
        { m with tokenCount := output }]⟩ := by
  simp only [append, appendReply, chargeLast, List.getLast?_concat, List.dropLast_concat]
  cases totalTokens c.messages with
  | error e => rfl
  | ok accounted => simp [Except.map, bind, Except.bind, pure, Except.pure]

/-- An outcome keeps the message unless it was blocked or failed. -/
theorem Outcome.message?_ofMessage (m : Message) :
    (ofMessage m).message?
      = if m.stopReason = some .blocked ∨ m.stopReason = some .error then none else some m := by
  unfold ofMessage
  split <;> simp_all [message?]

/-! ## Turns -/

/-- A turn to take: a message to send, and how the provider and the reader behave. -/
inductive Exchange where
  /-- The reply comes as one body, or not at all. -/
  | whole (message : Message) (ids : CallIds) (response : Except Error Bytes)
  /-- The reply is streamed, and the reader may be asked to stop. -/
  | streamed (message : Message) (ids : CallIds) (stop : StopRequest) (ending : Ending)
      (frames : List (Except Error Frame))

namespace Exchange

/-- The message to send. -/
def message : Exchange → Message
  | .whole message .. | .streamed message .. => message

/-- Whether the reply is streamed. -/
def isStreamed : Exchange → Bool
  | .whole .. => false
  | .streamed .. => true

/-- The reply that comes of what the provider sends, or why there is none. -/
def received (provider : Provider) : Exchange → Except Error Reply
  | .whole _ ids response => response.bind (provider.decodeReply ids)
  | .streamed _ ids stop ending frames => (readStream provider ids stop ending frames).result

end Exchange

namespace Session

/-- Takes a turn. -/
def turn (s : Session) : Exchange → Turn
  | .whole message ids response => s.send ids message response
  | .streamed message ids stop ending frames => s.sendStream ids message stop ending frames

/-- The session after turns that are taken one after the other. -/
def after (s : Session) (exchanges : List Exchange) : Session :=
  exchanges.foldl (fun s x => (s.turn x).session) s

/-- The session when so many of the turns have been taken. -/
def stage (s : Session) (exchanges : List Exchange) (k : Nat) : Session :=
  s.after (exchanges.take k)

/-- The messages of a session before and after a turn, as the result of the turn has them: the same,
or two more, the sent one charged with what the input leaves for it and the reply with the output.
Where the earlier counts cannot be added up, recording the pair stops behind the sent message. -/
def Records (earlier later : List Message) (sent : Message) (received : Except Error Reply) :
    Except Error Outcome → Prop
  | .error e => later = earlier ∨
    e = .overflow ∧ UInt64.size ≤ tokenSum earlier ∧ later = earlier ++ [sent]
  | .ok (.withheld _) => later = earlier
  | .ok (.complete m) | .ok (.cutShort m) =>
    tokenSum earlier < UInt64.size ∧ ∃ reply, received = .ok reply ∧ reply.message = m ∧
      ∃ charge : UInt64, later = earlier ++
          [{ sent with tokenCount := charge }, { m with tokenCount := reply.usage.output }] ∧
        charge.toNat = reply.usage.totalInput.toNat - tokenSum earlier

/-- Both kinds of turns are exchanges of a message for what is received. -/
theorem turn_eq_exchange (s : Session) (x : Exchange) :
    s.turn x = s.exchange x.message x.isStreamed (x.received s.provider) := by
  cases x <;> rfl

/-- A reply that is not withheld is recorded behind the sent message. -/
theorem settle_records (s : Session) (sent : Message) (reply : Reply) :
    Records s.conversation.messages (s.settle sent reply).1.conversation.messages sent (.ok reply)
      (s.settle sent reply).2 := by
  have hkept := Outcome.message?_ofMessage reply.message
  unfold settle
  cases houtcome : Outcome.ofMessage reply.message with
  | withheld reason => rfl
  | complete m | cutShort m =>
    have hm : reply.message = m := by
      rw [houtcome] at hkept
      split at hkept
      · cases hkept
      · exact (Option.some.inj hkept).symm
    simp only [Outcome.message?, Conversation.appendReply_append, totalTokens_eq]
    by_cases hsum : tokenSum s.conversation.messages < UInt64.size
    · rw [countOf_of_lt hsum]
      refine ⟨hsum, reply, rfl, hm, _, rfl, ?_⟩
      rw [saturatingSub_toNat, UInt64.toNat_ofNat_of_lt' hsum]
    · rw [countOf_of_le (Nat.not_lt.1 hsum)]
      exact .inr ⟨rfl, Nat.not_lt.1 hsum, rfl⟩

/-- What a turn makes of the conversation is what its result tells. -/
theorem turn_records (s : Session) (x : Exchange) :
    Records s.conversation.messages (s.turn x).session.conversation.messages x.message
      (x.received s.provider) (s.turn x).result := by
  rw [turn_eq_exchange, exchange]
  cases s.requestBody x.message x.isStreamed with
  | error e => exact .inl rfl
  | ok body =>
    cases x.received s.provider with
    | error e => exact .inl rfl
    | ok reply => exact s.settle_records x.message reply

/-- As long as the counts can be added up, a turn fails only if its request cannot be made or
nothing is received. -/
theorem turn_result {s : Session} (h : tokenSum s.conversation.messages < UInt64.size)
    (x : Exchange) : (s.turn x).result = (s.requestBody x.message x.isStreamed).bind fun _ =>
      (x.received s.provider).map fun reply => Outcome.ofMessage reply.message := by
  rw [turn_eq_exchange, exchange]
  cases s.requestBody x.message x.isStreamed with
  | error e => rfl
  | ok body =>
    cases x.received s.provider with
    | error e => rfl
    | ok reply =>
      simp only [settle, Except.bind, Except.map, Conversation.appendReply_append, totalTokens_eq,
        countOf_of_lt h]
      cases (Outcome.ofMessage reply.message).message? <;> rfl

/-- An outcome is that of the reply that is received. -/
theorem exists_reply_of_turn {s : Session} {x : Exchange} {outcome : Outcome}
    (h : (s.turn x).result = .ok outcome) :
    ∃ reply, x.received s.provider = .ok reply ∧ outcome = .ofMessage reply.message := by
  rw [turn_eq_exchange, exchange] at h
  cases hbody : s.requestBody x.message x.isStreamed with
  | error e =>
    rw [hbody] at h
    cases h
  | ok body =>
    cases hreceived : x.received s.provider with
    | error e =>
      rw [hbody, hreceived] at h
      cases h
    | ok reply =>
      refine ⟨reply, rfl, ?_⟩
      rw [hbody, hreceived] at h
      simp only [settle] at h
      split at h
      · exact (Except.ok.inj h).symm
      · split at h
        · cases h
        · exact (Except.ok.inj h).symm

/-- A turn adds nothing, or the sent message and a reply that may be used; or, where the counts of
the messages cannot be added up, the sent message alone. -/
theorem turn_pair (s : Session) (x : Exchange) :
    (s.turn x).session.conversation.messages = s.conversation.messages ∨
      (tokenSum s.conversation.messages < UInt64.size ∧ ∃ (charge : UInt64) (reply : Message),
        (s.turn x).session.conversation.messages
          = s.conversation.messages ++ [{ x.message with tokenCount := charge }, reply] ∧
        reply.stopReason ≠ some .blocked ∧ reply.stopReason ≠ some .error) ∨
      UInt64.size ≤ tokenSum s.conversation.messages ∧
        (s.turn x).session.conversation.messages = s.conversation.messages ++ [x.message] := by
  have hrecords := s.turn_records x
  cases hresult : (s.turn x).result with
  | error e =>
    rw [hresult] at hrecords
    rcases hrecords with hsame | ⟨-, hsum, hlater⟩
    · exact .inl hsame
    · exact .inr (.inr ⟨hsum, hlater⟩)
  | ok outcome =>
    obtain ⟨reply, -, houtcome⟩ := exists_reply_of_turn hresult
    have hkept := Outcome.message?_ofMessage reply.message
    rw [← houtcome] at hkept
    rw [hresult] at hrecords
    cases outcome with
    | withheld reason => exact .inl hrecords
    | complete m | cutShort m =>
      obtain ⟨hsum, _, -, -, charge, hlater, -⟩ := hrecords
      refine .inr (.inl ⟨hsum, charge, _, hlater, ?_⟩)
      split at hkept
      · cases hkept
      case isFalse hreason =>
        obtain rfl : m = reply.message := Option.some.inj hkept
        exact not_or.1 hreason

/-! ## Runs of turns -/

@[simp] theorem after_nil (s : Session) : s.after [] = s := rfl

theorem after_concat (s : Session) (exchanges : List Exchange) (x : Exchange) :
    s.after (exchanges ++ [x]) = ((s.after exchanges).turn x).session := by
  rw [after, List.foldl_append]
  rfl

theorem stage_succ {s : Session} {exchanges : List Exchange} {k : Nat} {x : Exchange}
    (h : exchanges[k]? = some x) :
    s.stage exchanges (k + 1) = ((s.stage exchanges k).turn x).session := by
  rw [stage, List.take_add_one, h, Option.toList_some, after_concat]
  rfl

/-- The messages of a pair, one behind the other. -/
def pairMessages (p : Message × Message) : List Message := [p.1, p.2]

/-- What a run of turns has added: pairs of a sent message and a reply that may be used, and behind
them, once the counts cannot be added up any more, sent messages alone. -/
structure Adds (exchanges : List Exchange) (earlier later : List Message)
    (pairs : List (Message × Message)) (orphans : List Message) : Prop where
  messages : later = earlier ++ pairs.flatMap pairMessages ++ orphans
  sent : ∀ p ∈ pairs, ∃ x ∈ exchanges, ∃ charge, p.1 = { x.message with tokenCount := charge }
  usable : ∀ p ∈ pairs, p.2.stopReason ≠ some .blocked ∧ p.2.stopReason ≠ some .error
  orphaned : ∀ m ∈ orphans, ∃ x ∈ exchanges, m = x.message
  paired : tokenSum later < UInt64.size → orphans = []

theorem after_adds (s : Session) (exchanges : List Exchange) :
    ∃ pairs orphans, Adds exchanges s.conversation.messages
      (s.after exchanges).conversation.messages pairs orphans := by
  induction exchanges using List.reverseRecOn with
  | nil =>
    refine ⟨[], [], ?_, List.forall_mem_nil _, List.forall_mem_nil _, List.forall_mem_nil _,
      fun _ => rfl⟩
    simp
  | append_singleton exchanges x ih =>
    obtain ⟨pairs, orphans, h⟩ := ih
    have hsent : ∀ p ∈ pairs, ∃ y ∈ exchanges ++ [x],
        ∃ charge, p.1 = { y.message with tokenCount := charge } := by
      intro p hp
      obtain ⟨y, hy, hcharge⟩ := h.sent p hp
      exact ⟨y, List.mem_append_left _ hy, hcharge⟩
    have horphaned : ∀ m ∈ orphans, ∃ y ∈ exchanges ++ [x], m = y.message := by
      intro m hm
      obtain ⟨y, hy, hmessage⟩ := h.orphaned m hm
      exact ⟨y, List.mem_append_left _ hy, hmessage⟩
    have hlast : x ∈ exchanges ++ [x] := by simp
    rw [after_concat]
    rcases (s.after exchanges).turn_pair x with
      hsame | ⟨hsum, charge, reply, hlater, hreason⟩ | ⟨hsum, hlater⟩
    · rw [hsame]
      exact ⟨pairs, orphans, h.messages, hsent, h.usable, horphaned, h.paired⟩
    · -- a pair is only added as long as every message has its reply
      obtain rfl := h.paired hsum
      refine ⟨pairs ++ [({ x.message with tokenCount := charge }, reply)], [], ?_, ?_, ?_, nofun,
        fun _ => rfl⟩
      · rw [hlater, h.messages, List.flatMap_append]
        simp [pairMessages]
      · intro p hp
        rcases List.mem_append.1 hp with hp | hp
        · exact hsent p hp
        · rw [List.mem_singleton.1 hp]
          exact ⟨x, hlast, charge, rfl⟩
      · intro p hp
        rcases List.mem_append.1 hp with hp | hp
        · exact h.usable p hp
        · rw [List.mem_singleton.1 hp]
          exact hreason
    · refine ⟨pairs, orphans ++ [x.message], ?_, hsent, h.usable, ?_, fun hsmall => ?_⟩
      · rw [hlater, h.messages, List.append_assoc]
      · intro m hm
        rcases List.mem_append.1 hm with hm | hm
        · exact horphaned m hm
        · rw [List.mem_singleton.1 hm]
          exact ⟨x, hlast, rfl⟩
      · rw [hlater] at hsmall
        exact absurd (Nat.le_trans hsum (tokenSum_le_concat _ _)) (Nat.not_le.2 hsmall)

/-- In a run of turns each failed or withheld one leaves the conversation as it was, and each other
one appends the sent message and the reply, charged with what was reported. So what the run adds are
pairs of a message and its reply, and no reply that was blocked or failed. -/
theorem turns_record_pairs (s : Session) (exchanges : List Exchange) :
    (∀ k x, exchanges[k]? = some x →
      (tokenSum (s.stage exchanges k).conversation.messages < UInt64.size →
        ((s.stage exchanges k).turn x).result
          = ((s.stage exchanges k).requestBody x.message x.isStreamed).bind fun _ =>
            (x.received (s.stage exchanges k).provider).map fun reply =>
              Outcome.ofMessage reply.message) ∧
        Records (s.stage exchanges k).conversation.messages
          (s.stage exchanges (k + 1)).conversation.messages x.message
          (x.received (s.stage exchanges k).provider) ((s.stage exchanges k).turn x).result) ∧
    ∃ pairs orphans, Adds exchanges s.conversation.messages
      (s.after exchanges).conversation.messages pairs orphans := by
  refine ⟨fun k x hx => ⟨fun hsum => turn_result hsum x, ?_⟩, s.after_adds exchanges⟩
  rw [stage_succ hx]
  exact turn_records _ x

end Session

end ChatWire
