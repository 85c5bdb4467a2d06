import ChatWire.Proofs.Agreement.GeminiChunks

/-!
# Streams and messages in the Gemini format

The parts of a message may be dealt out to chunks in any way. The content that is read from the
stream is then the content of the message that bears all the parts at once, merged
(`Gemini.chunks_agree_with_message`).
-/

namespace ChatWire.Gemini

/-- The message of the model that bears the parts. -/
def modelMessage (ps : List Json) : Json := .object [
  ("parts", .array ps), ("role", .string "model")]

/-! ## Reading the message -/

theorem exists_contents (ids : CallIds) {ps : List Json} (h : ∀ part ∈ ps, IsStreamable part)
    (c : Contents) :
    ∃ c', ps.foldlM (Contents.add ids) c = .ok c' ∧
      c'.blocks = c.blocks ++ ps.filterMap block? := by
  induction ps generalizing c with
  | nil => exact ⟨c, rfl, (List.append_nil _).symm⟩
  | cons part rest ih =>
    obtain ⟨hpart, hrest⟩ := List.forall_mem_cons.1 h
    have hadd : ∃ c₁, c.add ids part = .ok c₁ ∧
        c₁.blocks = c.blocks ++ (block? part).toList := by
      rw [Contents.add, hpart.decodePart_eq]
      exact ⟨_, rfl, rfl⟩
    obtain ⟨c₁, hc₁, hblocks⟩ := hadd
    obtain ⟨c', hc', hblocks'⟩ := ih hrest c₁
    refine ⟨c', ?_, ?_⟩
    · rw [List.foldlM_cons, hc₁]
      exact hc'
    · rw [hblocks', hblocks, List.append_assoc]
      cases hblock : block? part <;> simp [hblock]

theorem decodeMessage_modelMessage (ids : CallIds) {ps : List Json}
    (h : ∀ part ∈ ps, IsStreamable part) :
    ∃ whole, decodeMessage ids (modelMessage ps) = .ok whole ∧
      whole.content = ps.filterMap block? := by
  obtain ⟨c, hcontents, hblocks⟩ := exists_contents ids h {}
  have hrole : decodeRole (modelMessage ps) = .ok .assistant := rfl
  have hparts : decodeParts ((modelMessage ps).get "parts") = .ok ps := rfl
  rw [decodeMessage, hrole, hparts]
  simp only [bind, Except.bind, hcontents]
  exact ⟨_, rfl, hblocks⟩

/-! ## Agreement -/

/-- However the parts are dealt out to chunks, the stream has the content of the message that bears
them all, merged where blocks follow each other, and its indices are below the number of blocks that
it brings. If a chunk reports more output than a count can be, then nothing is read. -/
theorem chunks_agree_with_message (ids ids' : CallIds) (frames : List Frame) (chunks : List Json)
    (hframes : List.Forall₂ (fun frame chunk => Json.read? frame.data = some chunk) frames chunks)
    (h : IsStreamed chunks) :
    ∃ whole, decodeMessage ids' (modelMessage (chunks.flatMap parts)) = .ok whole ∧
      ((∀ chunk ∈ chunks, reported chunk < UInt64.size) →
        ∃ streamed, readReply .gemini ids (frames.map .ok) = .ok streamed ∧
          streamed.message.withoutUsage.content = merged whole.content ∧
          IndicesBelow streamed.message.withoutUsage.content.length
            (streamEvents .gemini ids (frames.map .ok))) ∧
      ((∃ chunk ∈ chunks, UInt64.size ≤ reported chunk) →
        readReply .gemini ids (frames.map .ok) = .error .overflow) := by
  obtain ⟨whole, hwhole, hblocks⟩ := decodeMessage_modelMessage ids' h.parts
  refine ⟨whole, hwhole, fun hsmall => ?_, readReply_of_report ids hframes h⟩
  obtain ⟨streamed, hstreamed, hcontent, hindices⟩ := readReply_of_chunks ids hframes h hsmall
  rw [← hcontent] at hindices
  exact ⟨streamed, hstreamed, hcontent.trans (congrArg merged hblocks.symm), hindices⟩

/-- A chunk with the parts. -/
def chunkOf (ps : List Json) (finish : List (String × Json)) : Json := .object [
  ("candidates", .array [.object (("content", .object [("parts", .array ps)]) :: finish)])]

/-- Reasoning in two pieces, of which the second seals it, a text in two pieces with a signature
between them, a call, and a text behind it. -/
def lookupChunks : List Json := [
  chunkOf [.object [("text", .string "Let"), ("thought", .bool true)]] [],
  chunkOf [
    .object [("text", .string " me"), ("thought", .bool true),
      ("thoughtSignature", .string "seal")],
    .object [("text", .string "Look")]] [],
  chunkOf [
    .object [("thoughtSignature", .string "mark")],
    .object [("text", .string "ing.")],
    .object [("functionCall", .object [("args", .object [("q", .string "sea")]),
      ("id", .string "a"), ("name", .string "find")])]]
    [("finishReason", .string "STOP")],
  chunkOf [.object [("text", .string "Done.")]] []]

theorem isStreamable_of_decodePart {part : Json} (block : Option Block)
    (h : ∀ freshId, decodePart freshId part = .ok block)
    (hresult : ∀ r, block ≠ some (.toolResult r))
    (hcall : ∀ c, block = some (.toolCall c) →
      (∃ call, field? part "function_call" "functionCall" = some call ∧
        call.get "id" = .string c.id) ∧ Json.read? c.arguments.toText = some c.arguments) :
    IsStreamable part where
  accepted := ⟨"", block, h ""⟩
  notResult freshId r hread := hresult r (Except.ok.inj ((h freshId).symm.trans hread))
  ownId freshId c hread := (hcall c (Except.ok.inj ((h freshId).symm.trans hread))).1
  readBack freshId c hread := (hcall c (Except.ok.inj ((h freshId).symm.trans hread))).2

theorem isStreamed_lookupChunks : IsStreamed lookupChunks where
  errors := by decide +kernel
  ended := by decide +kernel
  parts := by
    have hparts : lookupChunks.flatMap parts = [
        .object [("text", .string "Let"), ("thought", .bool true)],
        .object [("text", .string " me"), ("thought", .bool true),
          ("thoughtSignature", .string "seal")],
        .object [("text", .string "Look")],
        .object [("thoughtSignature", .string "mark")],
        .object [("text", .string "ing.")],
        .object [("functionCall", .object [("args", .object [("q", .string "sea")]),
          ("id", .string "a"), ("name", .string "find")])],
        .object [("text", .string "Done.")]] := by decide +kernel
    have harguments : Json.read? (Json.object [("q", .string "sea")]).toText
        = some (.object [("q", .string "sea")]) := by
      have hsame : (Json.object [("q", .string "sea")]).reread.canonical
          = .object [("q", .string "sea")] := by decide +kernel
      rw [Json.read?_toText (by decide), hsame]
    rw [hparts]
    simp only [List.forall_mem_cons, List.not_mem_nil, false_implies, implies_true, and_true]
    refine ⟨?_, ?_, ?_, ?_, ?_, ?_, ?_⟩
    case refine_6 =>
      refine isStreamable_of_decodePart (some (.toolCall
        ⟨"a", "find", .object [("q", .string "sea")]⟩)) (fun _ => rfl) (by simp) fun c hc => ?_
      obtain rfl := Block.toolCall.inj (Option.some.inj hc)
      exact ⟨⟨_, rfl, rfl⟩, harguments⟩
    all_goals exact isStreamable_of_decodePart _ (fun _ => rfl) (by simp) (by simp)

theorem chunks_agree_with_message_lookup :
    IsStreamed lookupChunks ∧ ∃ streamed whole,
      readReply .gemini .numbered (framesOf lookupChunks) = .ok streamed ∧
      decodeMessage .numbered (modelMessage (lookupChunks.flatMap parts)) = .ok whole ∧
      streamed.message.withoutUsage.content = merged whole.content := by
  have hprinted : ∀ chunk ∈ lookupChunks, chunk.IsReprinted := by decide +kernel
  obtain ⟨whole, hwhole, hstreamed, -⟩ := chunks_agree_with_message .numbered .numbered _
    lookupChunks (forall₂_framesOf hprinted) isStreamed_lookupChunks
  obtain ⟨streamed, hreply, hcontent, -⟩ := hstreamed (by decide +kernel)
  exact ⟨isStreamed_lookupChunks, streamed, whole, hreply, hwhole, hcontent⟩

/-- A greeting, and a report of more output than a count can be. -/
def longChunk : Json := .object [
  ("candidates", .array [.object [
    ("content", .object [("parts", .array [.object [("text", .string "Hi.")]])]),
    ("finishReason", .string "STOP")]]),
  ("usageMetadata", longOutput)]

theorem isStreamed_longChunk : IsStreamed [longChunk] where
  errors := by decide +kernel
  ended := by decide +kernel
  parts := by
    have hparts : [longChunk].flatMap parts = [.object [("text", .string "Hi.")]] := by
      decide +kernel
    rw [hparts, List.forall_mem_singleton]
    exact isStreamable_of_decodePart _ (fun _ => rfl) (by simp) (by simp)

/-- The message is read, and the stream with the same part is not, on account of its report. -/
theorem longChunk_not_read :
    IsStreamed [longChunk] ∧
      (∃ whole, decodeMessage .numbered (modelMessage ([longChunk].flatMap parts)) = .ok whole ∧
        merged whole.content = [.text "Hi."]) ∧
      ¬ ∃ streamed, readReply .gemini .numbered (framesOf [longChunk]) = .ok streamed := by
  have hprinted : ∀ chunk ∈ [longChunk], chunk.IsReprinted := by decide +kernel
  have hlarge : ∃ chunk ∈ [longChunk], UInt64.size ≤ reported chunk := by decide +kernel
  have hfails := readReply_of_report .numbered (forall₂_framesOf hprinted) isStreamed_longChunk
    hlarge
  refine ⟨isStreamed_longChunk, ?_, ?_⟩
  · obtain ⟨whole, hwhole, hblocks⟩ :=
      decodeMessage_modelMessage .numbered isStreamed_longChunk.parts
    have hgreeting : merged (([longChunk].flatMap parts).filterMap block?) = [.text "Hi."] := by
      decide +kernel
    exact ⟨whole, hwhole, hblocks ▸ hgreeting⟩
  · rintro ⟨streamed, hstreamed⟩
    rw [framesOf, hfails] at hstreamed
    cases hstreamed

end ChatWire.Gemini
