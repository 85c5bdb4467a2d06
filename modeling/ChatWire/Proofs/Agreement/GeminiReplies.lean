import ChatWire.Proofs.Agreement.Gemini
import ChatWire.Proofs.Agreement.GeminiStreams

/-!
# Signatures of streamed replies

A reply stores at each place the signature that landed there last, so none is lost if no two parts
with signatures land together (`Gemini.readStream_stores_signatures`). Where every part has a block,
the reply can be written, and each signature comes back on the part of the block into which its own
part was merged (`Gemini.readStream_returns_signatures`).
-/

namespace ChatWire.Gemini

open StreamState (Completes)

variable {ids : CallIds} {frames : List (Except Error Frame)} {reply : Reply} {s : StreamState}
  {blocks content : List Block} {ps : List Json} {k : Nat} {p : Json} {signature : String}

/-! ## Blocks -/

/-- A block that has closed can be written, and has the outline it had before. -/
theorem outline_of_close {b b' : Block} (h : (openForm b).close .gemini = .ok (some b')) :
    outline b' = outline b ∧ Fits b' := by
  cases b with
  | toolCall c =>
    simp only [openForm, OpenBlock.close] at h
    split at h
    · obtain rfl := Option.some.inj (Except.ok.inj h)
      exact ⟨rfl, trivial⟩
    · cases h
  | text _ | thinking _ | attachment _ =>
    obtain rfl := Option.some.inj (Except.ok.inj h)
    exact ⟨rfl, trivial⟩
  | _ => cases h

theorem outlines_of_close
    (h : (blocks.map openForm).map (OpenBlock.close .gemini)
      = content.map fun b => .ok (some b)) :
    content.map outline = blocks.map outline ∧ ∀ b ∈ content, Fits b := by
  induction blocks generalizing content with
  | nil =>
    obtain rfl := List.map_eq_nil_iff.1 h.symm
    exact ⟨rfl, by simp⟩
  | cons b rest ih =>
    obtain ⟨b', rest', rfl, hfirst, hrest⟩ := List.map_eq_cons_iff.1 h.symm
    obtain ⟨houtline, hfits⟩ := outline_of_close hfirst.symm
    obtain ⟨houtlines, hothers⟩ := ih hrest.symm
    exact ⟨by rw [List.map_cons, List.map_cons, houtline, houtlines],
      List.forall_mem_cons.2 ⟨hfits, hothers⟩⟩

/-- Blocks of the same outlines have their first call, and their first block that is not reasoning,
at the same places. -/
theorem signaturePlace?_congr (h : content.map outline = blocks.map outline) :
    signaturePlace? content = signaturePlace? blocks := by
  have hplace (blocks : List Block) :
      signaturePlace? blocks = signaturePlace? (blocks.map outline) := by
    simp [signaturePlace?, List.findIdx?_map, Function.comp_def]
  rw [hplace, h, ← hplace]

/-! ## Chunks as they are written -/

/-- The parts of frames are those of the chunks in them. -/
theorem streamParts_of_chunks {frames : List Frame} {chunks : List Json}
    (h : List.Forall₂ (fun frame chunk => Json.read? frame.data = some chunk) frames chunks) :
    streamParts (frames.map .ok) = chunks.flatMap parts := by
  rw [streamParts_map_ok]
  induction h with
  | nil => rfl
  | cons hread _ ih =>
    rw [List.flatMap_cons, List.flatMap_cons, ih, frameParts, hread]
    rfl

/-- Chunks that are read as they were written give a reply. -/
theorem readStream_framesOf (ids : CallIds) {chunks : List Json} (h : IsStreamed chunks)
    (hsmall : ∀ chunk ∈ chunks, reported chunk < UInt64.size)
    (hprinted : ∀ chunk ∈ chunks, chunk.IsReprinted) :
    streamParts (framesOf chunks) = chunks.flatMap parts ∧
      ∃ reply, (readStream .gemini ids none .closes (framesOf chunks)).result = .ok reply ∧
        reply.message.withoutUsage.content
          = merged ((chunks.flatMap parts).filterMap block?) := by
  have hframes := forall₂_framesOf hprinted
  obtain ⟨reply, hreply, hcontent, -⟩ := readReply_of_chunks ids hframes h hsmall
  exact ⟨streamParts_of_chunks hframes, reply, hreply, hcontent⟩

/-- Sealed reasoning, a text in two pieces of which the first is signed, and a signed call. -/
def planChunks : List Json := [
  chunkOf [
    .object [("text", .string "Plan"), ("thought", .bool true),
      ("thoughtSignature", .string "seal")],
    .object [("text", .string "Look"), ("thoughtSignature", .string "s1")]] [],
  chunkOf [
    .object [("text", .string "ing.")],
    .object [("functionCall", .object [("args", .object [("q", .string "sea")]),
      ("id", .string "a"), ("name", .string "find")]), ("thoughtSignature", .string "s2")]]
    [("finishReason", .string "STOP")]]

theorem isStreamed_planChunks : IsStreamed planChunks where
  errors := by decide +kernel
  ended := by decide +kernel
  parts := by
    have hparts : planChunks.flatMap parts = [
        .object [("text", .string "Plan"), ("thought", .bool true),
          ("thoughtSignature", .string "seal")],
        .object [("text", .string "Look"), ("thoughtSignature", .string "s1")],
        .object [("text", .string "ing.")],
        .object [("functionCall", .object [("args", .object [("q", .string "sea")]),
          ("id", .string "a"), ("name", .string "find")]),
          ("thoughtSignature", .string "s2")]] := by
      decide +kernel
    have harguments : Json.read? (Json.object [("q", .string "sea")]).toText
        = some (.object [("q", .string "sea")]) := by
      have hsame : (Json.object [("q", .string "sea")]).reread.canonical
          = .object [("q", .string "sea")] := by decide +kernel
      rw [Json.read?_toText (by decide), hsame]
    rw [hparts]
    simp only [List.forall_mem_cons, List.not_mem_nil, false_implies, implies_true, and_true]
    refine ⟨?_, ?_, ?_, ?_⟩
    case refine_4 =>
      refine isStreamable_of_decodePart (some (.toolCall
        ⟨"a", "find", .object [("q", .string "sea")]⟩)) (fun _ => rfl) (by simp) fun c hc => ?_
      obtain rfl := Block.toolCall.inj (Option.some.inj hc)
      exact ⟨⟨_, rfl, rfl⟩, harguments⟩
    all_goals exact isStreamable_of_decodePart _ (fun _ => rfl) (by simp) (by simp)

/-! ## Storing -/

/-- What a reply stores: at each place the signature that landed there last. -/
theorem StreamState.Completes.stores_iff (h : Completes ids frames reply s blocks)
    (signature : String) : Stores reply.message signature ↔
      ∃ i, (latest (landing (streamParts frames)) (streamParts frames)).find? i
        = some signature := by
  obtain ⟨events, hfiles⟩ := h.files
  rw [Gemini.stores_iff h.metadata, hfiles.signatures]
  rfl

/-- A stream that gives a reply stores at each place the signature that landed there last: all
signatures of parts that are not reasoning, if no two of these parts land together. -/
theorem readStream_stores_signatures {stop : StopRequest} {ending : Ending}
    (h : (readStream .gemini ids stop ending frames).result = .ok reply) :
    (∀ signature, Stores reply.message signature ↔
      ∃ i, (latest (landing (streamParts frames)) (streamParts frames)).find? i
        = some signature) ∧
    (IsApart (landing (streamParts frames)) (streamParts frames) →
      ∀ part ∈ streamParts frames, ∀ signature, looseSignature? part = some signature →
        Stores reply.message signature) := by
  obtain ⟨s, blocks, hcompletes⟩ := exists_of_readStream h
  refine ⟨hcompletes.stores_iff, fun hapart part hpart signature hsignature => ?_⟩
  obtain ⟨k, hk⟩ := List.mem_iff_getElem?.1 hpart
  exact (hcompletes.stores_iff signature).2 ⟨_, find?_latest hapart hk hsignature⟩

theorem readStream_stores_signatures_plan :
    ∃ reply, (readStream .gemini .numbered none .closes (framesOf planChunks)).result = .ok reply ∧
      IsApart (landing (streamParts (framesOf planChunks))) (streamParts (framesOf planChunks)) ∧
      Stores reply.message "s1" ∧ Stores reply.message "s2" ∧ ¬ Stores reply.message "seal" := by
  obtain ⟨hparts, reply, hreply, -⟩ := readStream_framesOf .numbered isStreamed_planChunks
    (by decide) (by decide +kernel)
  obtain ⟨hstores, hall⟩ := readStream_stores_signatures hreply
  rw [hparts] at hstores hall ⊢
  have hapart : IsApart (landing (planChunks.flatMap parts)) (planChunks.flatMap parts) := by
    decide +kernel
  have hkept : ∀ signature ∈ ["s1", "s2"], Stores reply.message signature := by
    intro signature hsignature
    obtain ⟨part, hpart, hloose⟩ : ∃ part ∈ planChunks.flatMap parts,
        looseSignature? part = some signature := by
      revert signature
      decide +kernel
    exact hall hapart part hpart signature hloose
  refine ⟨reply, hreply, hapart, hkept _ (by simp), hkept _ (by simp), ?_⟩
  rw [hstores]
  rintro ⟨i, hi⟩
  obtain ⟨k, part, hpart, hloose, -⟩ := exists_of_find?_latest hi
  have hnone : ∀ part ∈ planChunks.flatMap parts, looseSignature? part ≠ some "seal" := by
    decide +kernel
  exact hnone part (List.mem_of_getElem? hpart) hloose

/-- Two signed pieces of one text. -/
def greetingChunks : List Json := [
  chunkOf [
    .object [("text", .string "Hello "), ("thoughtSignature", .string "a")],
    .object [("text", .string "world."), ("thoughtSignature", .string "b")]]
    [("finishReason", .string "STOP")]]

theorem isStreamed_greetingChunks : IsStreamed greetingChunks where
  errors := by decide +kernel
  ended := by decide +kernel
  parts := by
    have hparts : greetingChunks.flatMap parts = [
        .object [("text", .string "Hello "), ("thoughtSignature", .string "a")],
        .object [("text", .string "world."), ("thoughtSignature", .string "b")]] := by
      decide +kernel
    rw [hparts]
    simp only [List.forall_mem_cons, List.not_mem_nil, false_implies, implies_true, and_true]
    constructor <;> exact isStreamable_of_decodePart _ (fun _ => rfl) (by simp) (by simp)

/-- Of two signatures that land on one text only the second is stored. -/
theorem greeting_loses_signature :
    ∃ reply,
      (readStream .gemini .numbered none .closes (framesOf greetingChunks)).result = .ok reply ∧
      (streamParts (framesOf greetingChunks)).map looseSignature? = [some "a", some "b"] ∧
      reply.message.withoutUsage.content = [.text "Hello world."] ∧
      ¬ Stores reply.message "a" ∧ Stores reply.message "b" := by
  obtain ⟨hparts, reply, hreply, hcontent⟩ := readStream_framesOf .numbered
    isStreamed_greetingChunks (by decide) (by decide +kernel)
  obtain ⟨s, blocks, hcompletes⟩ := exists_of_readStream hreply
  have hstores (signature : String) : Stores reply.message signature ↔ ∃ i,
      (i, signature) ∈ (latest (landing (greetingChunks.flatMap parts))
        (greetingChunks.flatMap parts)).entries := by
    rw [hcompletes.stores_iff, hparts]
    exact exists_congr fun i => Table.mem_entries_iff.symm
  have hentries : (latest (landing (greetingChunks.flatMap parts))
      (greetingChunks.flatMap parts)).entries = [(0, "b")] := by decide +kernel
  rw [hentries] at hstores
  refine ⟨reply, hreply, ?_, ?_, ?_, ?_⟩
  · rw [hparts]
    decide +kernel
  · rw [hcontent]
    decide +kernel
  · rw [hstores]
    simp
  · rw [hstores]
    simp

/-! ## Returning -/

/-- Every part has a block that a stream takes, only texts are reasoning, and of the texts that are
merged into one block at most one is signed. -/
structure IsSettled (ps : List Json) : Prop where
  streamed : ∀ p ∈ ps, (streamed? p).isSome
  spoken : ∀ p ∈ ps, isThought p → (p.get? "text").isSome
  single : ∀ p ∈ ps.zipIdx, ∀ q ∈ ps.zipIdx, (p.1.get? "text").isSome → (q.1.get? "text").isSome →
    (looseSignature? p.1).isSome → (looseSignature? q.1).isSome →
    landing ps p.2 = landing ps q.2 → p.2 = q.2

/-- The parts are those of the blocks, and each bears the signature that is its own: reasoning its
seal, any other part that of the streamed part which landed there, if there is one. -/
structure Returns (ps : List Json) (content : List Block) (written : List Json) : Prop where
  length : written.length = content.length
  same (i : Nat) (b : Block) (hb : content[i]? = some b) : ∃ p p' : Json, encodePart b = .ok p ∧
    written[i]? = some p' ∧ ∀ key, key ≠ "thought_signature" → p'.get? key = p.get? key
  returned (k : Nat) (p : Json) (signature : String) (hp : ps[k]? = some p)
    (hsignature : looseSignature? p = some signature) :
    written[landing ps k]?.bind signature? = some signature
  others (i : Nat) (b : Block) (signature : String) (hb : content[i]? = some b)
    (hother : b.isThinking = false) (hsignature : written[i]?.bind signature? = some signature) :
    ∃ k p, ps[k]? = some p ∧ looseSignature? p = some signature ∧ landing ps k = i
  seals (i : Nat) (t : Thinking) (ht : content[i]? = some (.thinking t)) :
    written[i]?.bind signature? = if t.signature = "" then none else some t.signature

theorem isSome_get?_text {b : Block} (hb : streamed? p = some b) (htext : b.text?.isSome) :
    (p.get? "text").isSome := by
  cases Gives.of_block? (Option.filter_eq_some_iff.1 hb).1 with
  | text s h => simp [h]
  | thinking s h => simp [h]
  | _ => cases htext

theorem IsSettled.isApart (h : IsSettled ps) : IsApart (landing ps) ps := by
  refine isApart_of_injective fun j k p q hp hq hloose hloose' hjk hland => ?_
  obtain ⟨b, hb⟩ := Option.isSome_iff_exists.1 (h.streamed p (List.mem_of_getElem? hp))
  obtain ⟨b', hb'⟩ := Option.isSome_iff_exists.1 (h.streamed q (List.mem_of_getElem? hq))
  obtain ⟨signature, hsignature⟩ := Option.isSome_iff_exists.1 hloose'
  have hother := not_isThinking_of_looseSignature? hb' hsignature
  -- Only a text can have been merged into a block that was there, and then that was a text too.
  cases htext : b'.text?.isSome with
  | true =>
    have hkind := getElem?_landing keptByJoin_isText hp hb
    rw [hland, getElem?_landing keptByJoin_isText hq hb', Option.some.injEq] at hkind
    have hsame := h.single (p, j) (List.mk_mem_zipIdx_iff_getElem?.2 hp) (q, k)
      (List.mk_mem_zipIdx_iff_getElem?.2 hq) (isSome_get?_text hb (hkind ▸ htext))
      (isSome_get?_text hb' htext) hloose hloose' hland
    omega
  | false =>
    have hwhole (last : Block) : join? last b' = none := by
      rw [Option.eq_none_iff_forall_ne_some]
      intro joined hjoined
      cases Joins.of_join? hjoined with
      | text s more => cases htext
      | thinking s more => cases hother
    exact absurd hland (landing_lt_of_whole hp hb hq hb' hwhole hjk).ne

/-- Where a signature lands stands a block that is not reasoning. -/
theorem IsSettled.lands (h : IsSettled ps) (hcontent : content.map outline
    = (streamedBlocks ps).map outline) (hp : ps[k]? = some p)
    (hsignature : looseSignature? p = some signature) :
    ∃ b, content[landing ps k]? = some b ∧ b.isThinking = false := by
  obtain ⟨b, hb⟩ := Option.isSome_iff_exists.1 (h.streamed p (List.mem_of_getElem? hp))
  have hkind := getElem?_landing keptByJoin_isThinking hp hb
  rw [not_isThinking_of_looseSignature? hb hsignature] at hkind
  obtain ⟨c, hc, hother⟩ := Option.map_eq_some_iff.1 hkind
  have houtline : (content[landing ps k]?).map outline = some (outline c) := by
    rw [← List.getElem?_map, hcontent, List.getElem?_map, hc, Option.map_some]
  obtain ⟨b', hb', hsame⟩ := Option.map_eq_some_iff.1 houtline
  refine ⟨b', hb', ?_⟩
  rw [← isThinking_outline, hsame, isThinking_outline, hother]

/-- The parts with the signatures that landed on them. -/
theorem IsSettled.returns (h : IsSettled ps) (hcontent : content.map outline
    = (streamedBlocks ps).map outline) (hfits : ∀ b ∈ content, Fits b) :
    Returns ps content (signed (latest (landing ps) ps).find?
      (partBehind (latest (landing ps) ps).find? (content.map part))) := by
  have hbeyond : ∀ i, content.length ≤ i → (latest (landing ps) ps).find? i = none := by
    intro i hi
    refine find?_latest_eq_none fun k p signature hp hsignature hland => ?_
    obtain ⟨b, hb, -⟩ := h.lands hcontent hp hsignature
    obtain ⟨hlt, -⟩ := List.getElem?_eq_some_iff.1 hb
    omega
  have hbears := bind_signature?_signed hfits fun i hi => hbeyond i (Nat.le_of_lt hi)
  refine ⟨?_, ?_, ?_, ?_, ?_⟩
  · rw [signed, List.length_mapIdx, partBehind, List.length_map, hbeyond _ le_rfl]
    simp
  · intro i b hb
    have hfit := hfits b (List.mem_of_getElem? hb)
    exact ⟨part b, _, (encodePart_eq_ok_iff b _).2 ⟨hfit, rfl⟩, getElem?_signed hb _,
      fun key hkey => get?_signWith _ _ hkey⟩
  · intro k p signature hp hsignature
    rw [hbears, find?_latest h.isApart hp hsignature]
    rfl
  · intro i b signature hb hother hsignature
    obtain ⟨-, hunsigned⟩ := exists_part_eq (hfits b (List.mem_of_getElem? hb)) hother
    rw [hbears, hb, Option.bind_some, hunsigned, Option.or_none] at hsignature
    exact exists_of_find?_latest hsignature
  · intro i t ht
    have hnone : (latest (landing ps) ps).find? i = none := by
      refine find?_latest_eq_none fun k p signature hp hsignature hland => ?_
      obtain ⟨b, hb, hother⟩ := h.lands hcontent hp hsignature
      rw [hland, ht] at hb
      obtain rfl := Option.some.inj hb
      cases hother
    rw [hbears, hnone, ht]
    exact signature?_part_thinking t

/-- The blocks of a reply have the outlines of the streamed blocks, and can be written. -/
theorem StreamState.Completes.outlines (h : Completes ids frames reply s blocks) :
    reply.message.withoutUsage.content.map outline
      = (streamedBlocks (streamParts frames)).map outline ∧
    ∀ b ∈ reply.message.withoutUsage.content, Fits b := by
  obtain ⟨events, hfiles⟩ := h.files
  obtain ⟨houtlines, hfits⟩ := outlines_of_close h.content
  exact ⟨houtlines.trans hfiles.outlines_merged, hfits⟩

/-- The place for a lone signature that a stream keeps is the one in the blocks of the reply. -/
theorem StreamState.Completes.place_eq (h : Completes ids frames reply s blocks) :
    s.firstCall.or s.firstOther = signaturePlace? reply.message.withoutUsage.content := by
  obtain ⟨events, hfiles⟩ := h.files
  rw [hfiles.firstCall, hfiles.firstOther]
  exact (signaturePlace?_congr (outlines_of_close h.content).1).symm

/-- The parts of a reply that is written, given that all places can be told. -/
theorem StreamState.Completes.signParts_eq (h : Completes ids frames reply s blocks)
    (hsettled : IsSettled (streamParts frames))
    (hsize : reply.message.withoutUsage.content.length ≤ UInt64.size) :
    signParts reply.message.withoutUsage (reply.message.withoutUsage.content.map part)
      = signed (latest (landing (streamParts frames)) (streamParts frames)).find?
        (partBehind (latest (landing (streamParts frames)) (streamParts frames)).find?
          (reply.message.withoutUsage.content.map part)) := by
  obtain ⟨events, hfiles⟩ := h.files
  have hfiled : HasFiled reply.message.withoutUsage s.signatures := by
    rw [HasFiled, ← h.place_eq]
    exact h.metadata
  rw [signParts_of_hasFiled hfiled (List.length_map _), hfiles.signatures]
  · rfl
  · rintro ⟨i, signature⟩ he
    rw [hfiles.signatures] at he
    obtain ⟨k, p, hp, hsignature, rfl⟩ := mem_filed.1 he
    obtain ⟨b, hb, -⟩ := hsettled.lands h.outlines.1 hp hsignature
    obtain ⟨hlt, -⟩ := List.getElem?_eq_some_iff.1 hb
    rw [List.length_map]
    exact ⟨hlt.le, hlt.trans_le hsize⟩

/-- The reply to a stream all of whose parts have blocks can be written, and every signature comes
back on the part of the block into which its own part was merged, as long as every place fits into a
machine word. The place for a lone signature that the stream has kept is the one that is found in
the finished message. -/
theorem readStream_returns_signatures {stop : StopRequest} {ending : Ending}
    (h : (readStream .gemini ids stop ending frames).result = .ok reply)
    (hsettled : IsSettled (streamParts frames))
    (hsize : reply.message.withoutUsage.content.length ≤ UInt64.size) :
    reply.message.withoutUsage.content.map outline
      = (streamedBlocks (streamParts frames)).map outline ∧
    (∃ w written, encodeMessage reply.message.withoutUsage = .ok w ∧
      decodeParts (w.get "parts") = .ok written ∧
      Returns (streamParts frames) reply.message.withoutUsage.content written) ∧
    ∃ (fs : List Frame) (s : StreamState) (events : List Event), frames = fs.map .ok ∧
      Step.sequence (fs.map StreamState.step) { ids } = (s, .ok events) ∧
      s.firstCall.or s.firstOther = signaturePlace? reply.message.withoutUsage.content := by
  obtain ⟨s, blocks, hcompletes⟩ := exists_of_readStream h
  obtain ⟨houtlines, hfits⟩ := hcompletes.outlines
  have hrole : reply.message.withoutUsage.role ≠ .system := by
    rw [show reply.message.withoutUsage.role = .assistant from hcompletes.role]
    decide
  have hwritable := isWritable_iff.2 ⟨hrole, hfits⟩
  obtain ⟨fs, events, hframes, hsteps⟩ := hcompletes.steps
  refine ⟨houtlines, ⟨_, _, encodeMessage_eq_ok_iff.2 ⟨hwritable, rfl⟩, rfl, ?_⟩,
    fs, s, events, hframes, hsteps, hcompletes.place_eq⟩
  rw [hcompletes.signParts_eq hsettled hsize]
  exact hsettled.returns houtlines hfits

theorem readStream_returns_signatures_plan :
    IsSettled (streamParts (framesOf planChunks)) ∧
    ∃ reply w written,
      (readStream .gemini .numbered none .closes (framesOf planChunks)).result = .ok reply ∧
      reply.message.withoutUsage.content = [.thinking ⟨"Plan", "seal"⟩, .text "Looking.",
        .toolCall ⟨"a", "find", .object [("q", .string "sea")]⟩] ∧
      encodeMessage reply.message.withoutUsage = .ok w ∧
      decodeParts (w.get "parts") = .ok written ∧
      (List.range 3).map (fun i => written[i]?.bind signature?)
        = [some "seal", some "s1", some "s2"] := by
  obtain ⟨hparts, reply, hreply, hmerged⟩ := readStream_framesOf .numbered isStreamed_planChunks
    (by decide) (by decide +kernel)
  have hsettled : IsSettled (planChunks.flatMap parts) :=
    ⟨by decide +kernel, by decide +kernel, by decide +kernel⟩
  have hcontent : reply.message.withoutUsage.content = [.thinking ⟨"Plan", "seal"⟩,
      .text "Looking.", .toolCall ⟨"a", "find", .object [("q", .string "sea")]⟩] := by
    rw [hmerged]
    decide +kernel
  have hreturns := readStream_returns_signatures hreply (hparts ▸ hsettled)
    (by rw [hcontent]; decide)
  rw [hparts] at hreturns ⊢
  obtain ⟨-, ⟨w, written, hw, hwritten, hreturns⟩, -⟩ := hreturns
  refine ⟨hsettled, reply, w, written, hreply, hcontent, hw, hwritten, ?_⟩
  have hseal := hreturns.seals 0 _ (congrArg (·[0]?) hcontent)
  have htext := hreturns.returned 1 _ "s1" rfl (by decide +kernel)
  have hcall := hreturns.returned 3 _ "s2" rfl (by decide +kernel)
  have hlands : landing (planChunks.flatMap parts) 1 = 1 ∧
      landing (planChunks.flatMap parts) 3 = 2 := by decide +kernel
  rw [hlands.1] at htext
  rw [hlands.2] at hcall
  simp [List.range_succ, hseal, htext, hcall]

end ChatWire.Gemini
