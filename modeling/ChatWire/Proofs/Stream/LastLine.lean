import ChatWire.Proofs.Stream.Chunks
import ChatWire.Proofs.Text.Utf8

/-!
# The last line of a body

The end of a body ends its last line and its last event, as line feeds would. So it makes no
difference whether a sender writes line feeds behind the last line or none
(`Framer.readBody_lineFeeds`). Bodies that end with a carriage return are left out: at the end of
the body it goes whether a line feed stands behind it or not, and others in front of it go as well.
-/

namespace ChatWire.Framer

open Bytes (lenientText getLast?_of_getLast?_lenientText)

/-! ## The last line -/

/-- The end of the body ends a line as a line feed does, if no carriage return stands at the line's
end. -/
theorem restText_eq_lineText {rest : Bytes} (h : rest.getLast? ≠ some 0x0D) :
    restText rest = lineText rest := by
  have hlast : (lenientText rest).toList.getLast? ≠ some '\r' := fun hreturn =>
    h (getLast?_of_getLast?_lenientText hreturn)
  rw [lineText, if_neg h, restText]
  generalize (lenientText rest).toList = text at hlast
  rcases List.eq_nil_or_concat text with rfl | ⟨front, c, rfl⟩
  · rfl
  · rw [List.concat_eq_append, List.getLast?_concat] at hlast
    have hc : (c == '\r') = false := beq_eq_false_iff_ne.2 fun hc => hlast (congrArg some hc)
    rw [List.concat_eq_append, List.reverse_concat, List.dropWhile_cons, hc,
      if_neg Bool.false_ne_true, ← List.reverse_concat, List.reverse_reverse]

/-- A body that does not end with a line feed ends with its last line. -/
theorem getLast?_splitLines_snd {bytes : Bytes} (h : bytes.getLast? ≠ some 0x0A) :
    (splitLines bytes).2.getLast? = bytes.getLast? := by
  induction bytes with
  | nil => rfl
  | cons b rest ih =>
    cases rest with
    | nil =>
      have hb : b ≠ 0x0A := fun hb => h (congrArg some hb)
      simp [splitLines, hb]
    | cons b' rest =>
      rw [List.getLast?_cons_cons] at h ⊢
      rw [← ih h]
      by_cases hb : b = 0x0A
      · simp [splitLines, hb]
      · rw [splitLines]
        simp only [hb, if_false]
        split
        · rw [List.getLast?_cons, ih h, List.getLast?_cons]
          rfl
        · rfl

/-! ## Line feeds at the end -/

variable {f : Framer}

theorem readBody_congr (h : 0x0A ∉ f.pending) {chunks chunks' : List Bytes}
    (hbody : chunks.flatten = chunks'.flatten) : f.readBody chunks = f.readBody chunks' := by
  rw [readBody_eq h, readBody_eq h, hbody]

theorem feed_lineFeed (h : 0x0A ∉ f.pending) :
    f.feed [0x0A] = ({ (f.line (lineText f.pending)).1 with pending := [] },
      (f.line (lineText f.pending)).2) := by
  rw [feed_eq, splitLines_line h]
  simp [splitLines, takeLines]

theorem finish_of_nil (h : f.pending = []) : f.finish = f.dispatch := by
  simp [finish, h]

theorem finish_of_ne_nil (h : f.pending ≠ []) :
    f.finish = ({ (f.line (restText f.pending)).1 with pending := [] }.dispatch.1,
      (f.line (restText f.pending)).2 ++
        { (f.line (restText f.pending)).1 with pending := [] }.dispatch.2) := by
  simp [finish, h, line_pending]

/-- An event that has ended does not end once more. -/
theorem dispatch_dispatch (f : Framer) : f.dispatch.1.dispatch = (f.dispatch.1, []) := by
  rw [dispatch_fst]
  rfl

/-- A blank line ends the event, or does nothing. -/
theorem line_nil (f : Framer) :
    f.line [] = f.dispatch ∨ f.line [] = (f, []) := by
  obtain ⟨framing, pending, name, data⟩ := f
  cases framing with
  | events => exact .inl rfl
  | lines => exact .inr rfl

/-- A line feed ends the last line, which the end of the body would have ended. -/
theorem readBody_lineFeed (hfeed : 0x0A ∉ f.pending) (hreturn : f.pending.getLast? ≠ some 0x0D) :
    f.readBody [[0x0A]] = f.finish := by
  have hread : f.readBody [[0x0A]]
      = ({ (f.line (lineText f.pending)).1 with pending := [] }.dispatch.1,
        (f.line (lineText f.pending)).2 ++
          { (f.line (lineText f.pending)).1 with pending := [] }.dispatch.2) := by
    simp only [readBody, feed_lineFeed hfeed, finish_of_nil]
  rw [hread]
  by_cases hnil : f.pending = []
  · have hblank : lineText [] = [] := rfl
    have hpending : { (f.line []).1 with pending := [] } = (f.line []).1 := by
      rw [← hnil, ← (framing_line f []).2]
    rw [finish_of_nil hnil, hnil, hblank, hpending]
    rcases line_nil f with hline | hline
    · rw [hline, dispatch_dispatch, List.append_nil]
    · rw [hline, List.nil_append]
  · rw [finish_of_ne_nil hnil, restText_eq_lineText hreturn]

/-- So do several line feeds: the others are blank lines. -/
theorem readBody_replicate (hfeed : 0x0A ∉ f.pending) (hreturn : f.pending.getLast? ≠ some 0x0D)
    (n : Nat) : f.readBody (List.replicate n [0x0A]) = f.finish := by
  induction n generalizing f with
  | zero => rfl
  | succ n ih =>
    have hnil : (f.feed [0x0A]).1.pending = [] := by rw [feed_lineFeed hfeed]
    have hrest : (f.feed [0x0A]).1.readBody (List.replicate n [0x0A]) = (f.feed [0x0A]).1.finish :=
      ih (by simp [hnil]) (by simp [hnil])
    rw [← readBody_lineFeed hfeed hreturn]
    simp only [List.replicate_succ, readBody, hrest]

/-- A body that ends neither with a line feed nor with a carriage return gives the same frames when
it is sent with line feeds behind it, however it is cut into chunks: with one it is the body whose
last line is ended, and with two its last event is ended as well. -/
theorem readBody_lineFeeds (framing : Framing) {chunks chunks' : List Bytes} {n : Nat}
    (hend : ∀ b ∈ chunks.flatten.getLast?, b ≠ 0x0A ∧ b ≠ 0x0D)
    (h : chunks'.flatten = chunks.flatten ++ List.replicate n 0x0A) :
    readBody { framing } chunks' = readBody { framing } chunks := by
  have hfeed : chunks.flatten.getLast? ≠ some 0x0A := fun hlast => (hend _ hlast).1 rfl
  have hreturn : chunks.flatten.getLast? ≠ some 0x0D := fun hlast => (hend _ hlast).2 rfl
  have hnew : 0x0A ∉ ({ framing } : Framer).pending := List.not_mem_nil
  have hpending : (feed { framing } chunks.flatten).1.pending.getLast? ≠ some 0x0D := by
    rw [feed_eq, List.nil_append, getLast?_splitLines_snd hfeed]
    exact hreturn
  -- the line feeds come as chunks of their own, behind the body in one chunk
  have hcuts : chunks'.flatten = (chunks.flatten :: List.replicate n [0x0A]).flatten := by
    simp [h]
  calc readBody { framing } chunks'
      = readBody { framing } (chunks.flatten :: List.replicate n [0x0A]) :=
        readBody_congr hnew hcuts
    _ = readBody { framing } [chunks.flatten] := by
        simp only [readBody, readBody_replicate (notMem_pending_feed _ _) hpending]
    _ = readBody { framing } chunks := readBody_congr hnew (by simp)

/-- A body that breaks off within a line of data and within a character, and then line feeds. -/
def brokenOff (lineFeeds : Bytes) : List Bytes :=
  [Bytes.ofString "event: tick\r\n: half\ndata", Bytes.ofString ": 12 " ++ [0xE2, 0x82], lineFeeds]

theorem readBody_lineFeeds_brokenOff :
    (∀ b ∈ (brokenOff []).flatten.getLast?, b ≠ 0x0A ∧ b ≠ 0x0D) ∧
    (brokenOff [0x0A, 0x0A]).flatten = (brokenOff []).flatten ++ List.replicate 2 0x0A ∧
    readBody { framing := .events } (brokenOff [0x0A, 0x0A])
      = ({ framing := .events }, [⟨some "tick", "12 \uFFFD"⟩]) := by
  have hend : ∀ b ∈ (brokenOff []).flatten.getLast?, b ≠ 0x0A ∧ b ≠ 0x0D := by decide +kernel
  have hbody : (brokenOff [0x0A, 0x0A]).flatten
      = (brokenOff []).flatten ++ List.replicate 2 0x0A := by decide +kernel
  refine ⟨hend, hbody, (readBody_lineFeeds .events hend hbody).trans ?_⟩
  decide +kernel

end ChatWire.Framer
