import ChatWire.Stream.Reading
import Mathlib.Tactic.Common

/-!
# Bodies cut into chunks

A framer that is fed one chunk after the other keeps exactly the bytes of the line that has not
ended, so it does what it would have done with both chunks at once (`Framer.feed_append`). The
frames of a body, and the reply that is read from them, are therefore the same however the body was
cut on its way (`Framer.readBody_of_cuts`).
-/

namespace ChatWire.Framer

/-! ## Lines -/

/-- What is left of the first bytes goes in front of the others. -/
theorem splitLines_append (first second : Bytes) :
    splitLines (first ++ second)
      = ((splitLines first).1 ++ (splitLines ((splitLines first).2 ++ second)).1,
        (splitLines ((splitLines first).2 ++ second)).2) := by
  induction first with
  | nil => rfl
  | cons b rest ih =>
    by_cases hb : b = 0x0A
    · simp [splitLines, hb, ih]
    · simp only [List.cons_append, splitLines, hb, if_false, ih]
      cases hlines : (splitLines rest).1 with
      | nil => simp [splitLines, hb]
      | cons line lines => rfl

theorem notMem_splitLines_snd (bytes : Bytes) : 0x0A ∉ (splitLines bytes).2 := by
  induction bytes with
  | nil => exact List.not_mem_nil
  | cons b rest ih =>
    by_cases hb : b = 0x0A
    · simpa [splitLines, hb] using ih
    · simp only [splitLines, hb, if_false]
      split
      · intro hmem
        rcases List.mem_cons.1 hmem with h | h
        · exact hb h.symm
        · exact ih h
      · exact ih

theorem splitLines_of_notMem {bytes : Bytes} (h : 0x0A ∉ bytes) :
    splitLines bytes = ([], bytes) := by
  induction bytes with
  | nil => rfl
  | cons b rest ih =>
    have hb : b ≠ 0x0A := fun hb => h (hb ▸ List.mem_cons_self)
    have hrest : 0x0A ∉ rest := fun hmem => h (List.mem_cons_of_mem _ hmem)
    simp [splitLines, hb, ih hrest]

theorem splitLines_line {line : Bytes} (h : 0x0A ∉ line) (rest : Bytes) :
    splitLines (line ++ 0x0A :: rest) = (line :: (splitLines rest).1, (splitLines rest).2) := by
  induction line with
  | nil => simp [splitLines]
  | cons b line ih =>
    have hb : b ≠ 0x0A := fun hb => h (hb ▸ List.mem_cons_self)
    have hline : 0x0A ∉ line := fun hmem => h (List.mem_cons_of_mem _ hmem)
    simp [splitLines, hb, ih hline]

/-! ## The framer between two chunks -/

variable {f : Framer}

theorem line_pending (f : Framer) (bytes : Bytes) (line : List Char) :
    { f with pending := bytes }.line line
      = ({ (f.line line).1 with pending := bytes }, (f.line line).2) := by
  obtain ⟨framing, pending, name, data⟩ := f
  cases framing with
  | lines => rfl
  | events =>
    simp only [Framer.line, eventLine, dispatch]
    repeat' split
    all_goals rfl

/-- Taking lines has nothing to do with the line that has not ended. -/
theorem takeLines_pending (f : Framer) (bytes : Bytes) (lines : List (List Char)) :
    { f with pending := bytes }.takeLines lines
      = ({ (f.takeLines lines).1 with pending := bytes }, (f.takeLines lines).2) := by
  induction lines generalizing f with
  | nil => rfl
  | cons line rest ih =>
    simp only [takeLines, line_pending]
    rw [ih]

theorem takeLines_append (f : Framer) (first second : List (List Char)) :
    f.takeLines (first ++ second)
      = (((f.takeLines first).1.takeLines second).1,
        (f.takeLines first).2 ++ ((f.takeLines first).1.takeLines second).2) := by
  induction first generalizing f with
  | nil => rfl
  | cons line rest ih => simp [takeLines, ih]

theorem feed_eq (f : Framer) (chunk : Bytes) :
    f.feed chunk
      = ({ (f.takeLines ((splitLines (f.pending ++ chunk)).1.map lineText)).1 with
            pending := (splitLines (f.pending ++ chunk)).2 },
        (f.takeLines ((splitLines (f.pending ++ chunk)).1.map lineText)).2) :=
  takeLines_pending f _ _

/-- Behind a chunk no line that has ended is left. -/
theorem notMem_pending_feed (f : Framer) (chunk : Bytes) : 0x0A ∉ (f.feed chunk).1.pending := by
  rw [feed_eq]
  exact notMem_splitLines_snd _

theorem feed_nil (h : 0x0A ∉ f.pending) : f.feed [] = (f, []) := by
  rw [feed_eq, List.append_nil, splitLines_of_notMem h]
  rfl

/-- Two chunks are taken as one. -/
theorem feed_append (f : Framer) (first second : Bytes) :
    f.feed (first ++ second)
      = (((f.feed first).1.feed second).1,
        (f.feed first).2 ++ ((f.feed first).1.feed second).2) := by
  simp only [feed_eq, ← List.append_assoc, splitLines_append (f.pending ++ first), List.map_append,
    takeLines_append, takeLines_pending]

theorem framing_line (f : Framer) (line : List Char) :
    (f.line line).1.framing = f.framing ∧ (f.line line).1.pending = f.pending := by
  obtain ⟨framing, pending, name, data⟩ := f
  cases framing with
  | lines => exact ⟨rfl, rfl⟩
  | events =>
    simp only [Framer.line, eventLine, dispatch]
    repeat' split
    all_goals exact ⟨rfl, rfl⟩

theorem dispatch_fst (f : Framer) :
    f.dispatch.1 = { framing := f.framing, pending := f.pending } := by
  unfold dispatch
  split
  case isTrue hdata =>
    rw [List.isEmpty_iff.1 hdata]
  case isFalse => rfl

/-- Behind the end of a body a framer is as good as new. -/
theorem finish_fst (f : Framer) : f.finish.1 = { framing := f.framing } := by
  by_cases hempty : f.pending = []
  · simp [finish, hempty, dispatch_fst]
  · obtain ⟨hframing, hpending⟩ := framing_line { f with pending := [] } (restText f.pending)
    simp [finish, hempty, dispatch_fst, hframing, hpending]

theorem framing_takeLines (f : Framer) (lines : List (List Char)) :
    (f.takeLines lines).1.framing = f.framing := by
  induction lines generalizing f with
  | nil => rfl
  | cons line rest ih => exact (ih _).trans (framing_line f line).1

/-! ## Whole bodies -/

/-- Takes a body in chunks and then its end. -/
def readBody (f : Framer) : List Bytes → Framer × List Frame
  | [] => f.finish
  | chunk :: rest =>
    let (f, frames) := f.feed chunk
    let (f, more) := f.readBody rest
    (f, frames ++ more)

/-- A body in chunks is taken as if it came in one. -/
theorem readBody_eq (h : 0x0A ∉ f.pending) (chunks : List Bytes) :
    f.readBody chunks
      = ((f.feed chunks.flatten).1.finish.1,
        (f.feed chunks.flatten).2 ++ (f.feed chunks.flatten).1.finish.2) := by
  induction chunks generalizing f with
  | nil =>
    rw [List.flatten_nil, feed_nil h]
    rfl
  | cons chunk rest ih =>
    have hrest := ih (notMem_pending_feed f chunk)
    simp only [readBody, hrest, List.flatten_cons, feed_append, List.append_assoc]

theorem readBody_fst (f : Framer) (chunks : List Bytes) :
    (f.readBody chunks).1 = { framing := f.framing } := by
  induction chunks generalizing f with
  | nil => exact finish_fst f
  | cons chunk rest ih =>
    have hframing : (f.feed chunk).1.framing = f.framing := by
      rw [feed_eq]
      exact framing_takeLines f _
    rw [readBody, ih, hframing]

theorem frames_eq_readBody (f : Framer) (chunks : List Bytes) :
    f.frames (chunks.map .ok) = (f.readBody chunks).2.map .ok := by
  induction chunks generalizing f with
  | nil => rfl
  | cons chunk rest ih => simp [frames, readBody, ih]

/-- Two ways to cut a body into chunks, also inside of a character or between a carriage return and
its line feed, give the same frames. Behind the end of the body the framer is as new, and whatever
provider the frames come from, the same reply is read from them. -/
theorem readBody_of_cuts (framing : Framing) (chunks chunks' : List Bytes)
    (h : chunks.flatten = chunks'.flatten) :
    readBody { framing } chunks = readBody { framing } chunks' ∧
    (readBody { framing } chunks).1 = { framing } ∧
    ∀ provider ids stop ending,
      readStream provider ids stop ending (framing.frames (chunks.map .ok))
        = readStream provider ids stop ending (framing.frames (chunks'.map .ok)) := by
  have hnew : 0x0A ∉ ({ framing } : Framer).pending := List.not_mem_nil
  have hbody : readBody { framing } chunks = readBody { framing } chunks' := by
    rw [readBody_eq hnew, readBody_eq hnew, h]
  refine ⟨hbody, readBody_fst _ _, fun provider ids stop ending => ?_⟩
  rw [Framing.frames, Framing.frames, frames_eq_readBody, frames_eq_readBody, hbody]

/-- A body cut inside of the two bytes of a letter and inside of a line's end. -/
def cutInLetter : List Bytes :=
  [[0x64, 0x61, 0x74, 0x61, 0x3A, 0xC3], [0xA9, 0x0D], [], [0x0A, 0x0A, 0x3A]]

/-- The same body cut between its lines. -/
def cutInLines : List Bytes :=
  [[0x64, 0x61, 0x74, 0x61, 0x3A, 0xC3, 0xA9, 0x0D, 0x0A], [0x0A], [0x3A]]

theorem readBody_of_cuts_letter :
    cutInLetter.flatten = cutInLines.flatten ∧
    readBody { framing := .events } cutInLetter = ({ framing := .events }, [⟨none, "é"⟩]) := by
  have hcuts : cutInLetter.flatten = cutInLines.flatten := rfl
  refine ⟨hcuts, (readBody_of_cuts .events cutInLetter cutInLines hcuts).1.trans ?_⟩
  decide +kernel

end ChatWire.Framer
