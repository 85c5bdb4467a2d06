import ChatWire.Proofs.Stream.Chunks
import ChatWire.Proofs.Text.Utf8
import Mathlib.Data.List.Basic

/-!
# Rendered bodies

What a sender writes, line by line: the lines of server-sent events with comments and control fields
between them, and texts one to a line with blank lines between them. A framer gives back what was
written, in whatever chunks the body comes (`Framer.readBody_rendered`).
-/

namespace ChatWire

open Bytes (ofString lenientText lenientText_ofString lenientText_ofString_append)

/-! ## Lines and their ends -/

/-- How a sender ends a line. -/
inductive LineEnd where
  /-- With a line feed. -/
  | lineFeed
  /-- With a carriage return and a line feed. -/
  | returnLineFeed
deriving DecidableEq

/-- What stands before the line feed. -/
def LineEnd.before : LineEnd → Bytes
  | .lineFeed => []
  | .returnLineFeed => [0x0D]

theorem LineEnd.notMem_before (e : LineEnd) : 0x0A ∉ e.before := by
  cases e <;> decide

/-- A text that fits on a line and is told from the line's end. -/
def IsLine (s : String) : Prop := '\n' ∉ s.toList ∧ s.toList.getLast? ≠ some '\r'

instance (s : String) : Decidable (IsLine s) := inferInstanceAs (Decidable (_ ∧ _))

theorem IsLine.append {s t : String} (hs : IsLine s) (ht : IsLine t) : IsLine (s ++ t) := by
  obtain ⟨hfeed, hreturn⟩ := hs
  obtain ⟨hfeed', hreturn'⟩ := ht
  refine ⟨?_, ?_⟩
  · rw [String.toList_append, List.mem_append]
    exact not_or.2 ⟨hfeed, hfeed'⟩
  · rw [String.toList_append, List.getLast?_append]
    cases hlast : t.toList.getLast? with
    | none => exact hreturn
    | some c => rwa [Option.some_or, ← hlast]

theorem notMem_ofString {s : String} (h : '\n' ∉ s.toList) : 0x0A ∉ ofString s := fun hmem =>
  h (Bytes.mem_toList_of_mem_ofString hmem (by decide))

namespace Framer

/-- The lines of a body that is written line by line. -/
theorem splitLines_flatMap {lines : List Bytes} (h : ∀ line ∈ lines, 0x0A ∉ line) {last : Bytes}
    (hlast : 0x0A ∉ last) :
    splitLines (lines.flatMap (· ++ [0x0A]) ++ last) = (lines, last) := by
  induction lines with
  | nil => exact splitLines_of_notMem hlast
  | cons line rest ih =>
    have hrest := ih fun l hl => h l (List.mem_cons_of_mem _ hl)
    rw [List.flatMap_cons, List.append_assoc, List.append_assoc, List.singleton_append,
      splitLines_line (h line List.mem_cons_self), hrest]

/-- What a framer gives for a body that is written line by line. -/
theorem readBody_lines (framing : Framing) {lines : List Bytes} (h : ∀ line ∈ lines, 0x0A ∉ line)
    {last : Bytes} (hlast : 0x0A ∉ last) {chunks : List Bytes}
    (hchunks : chunks.flatten = lines.flatMap (· ++ [0x0A]) ++ last) :
    (readBody { framing } chunks).2
      = (takeLines { framing } (lines.map lineText)).2 ++
        { (takeLines { framing } (lines.map lineText)).1 with pending := last }.finish.2 := by
  have hnew : 0x0A ∉ ({ framing } : Framer).pending := List.not_mem_nil
  rw [readBody_eq hnew, hchunks, feed_eq]
  simp only [List.nil_append, splitLines_flatMap h hlast]

/-- The text of a line is what was written, whichever way the line ends. -/
theorem lineText_ofString {s : String} (h : s.toList.getLast? ≠ some '\r') (e : LineEnd) :
    lineText (ofString s ++ e.before) = s.toList := by
  have hlast : (ofString s).getLast? ≠ some 0x0D := fun hreturn =>
    h (Bytes.getLast?_of_getLast?_ofString hreturn (by decide))
  cases e with
  | lineFeed => rw [LineEnd.before, List.append_nil, lineText, if_neg hlast, lenientText_ofString]
  | returnLineFeed =>
    rw [LineEnd.before, lineText, if_pos List.getLast?_concat, List.dropLast_concat,
      lenientText_ofString]

/-- However a line ends, its text begins with what was written first. -/
theorem exists_lineText_append {s : String} (h : s.toList.getLast? ≠ some '\r') (rest : Bytes) :
    ∃ cs, lineText (ofString s ++ rest) = s.toList ++ cs := by
  have hlast : (ofString s).getLast? ≠ some 0x0D := fun hreturn =>
    h (Bytes.getLast?_of_getLast?_ofString hreturn (by decide))
  unfold lineText
  split
  case isTrue hreturn =>
    rcases List.eq_nil_or_concat rest with rfl | ⟨front, b, rfl⟩
    · exact absurd (by simpa using hreturn) hlast
    · refine ⟨(lenientText front).toList, ?_⟩
      rw [List.concat_eq_append, ← List.append_assoc, List.dropLast_concat,
        lenientText_ofString_append]
  case isFalse => exact ⟨_, lenientText_ofString_append s rest⟩

end Framer

/-! ## Server-sent events -/

/-- A line of server-sent events. -/
inductive EventLine where
  /-- The name of the event. -/
  | name (name : String)
  /-- A line of the data. -/
  | data (text : String)
  /-- The end of the event. -/
  | blank
  /-- A comment. -/
  | comment (text : Bytes)
  /-- The id of the event, or the field alone. -/
  | id (value : Option Bytes)
  /-- The time after which to connect again, or the field alone. -/
  | retry (value : Option Bytes)

namespace EventLine

/-- A field with a value of any bytes, or without one. -/
def field (name : String) (value : Option Bytes) : Bytes :=
  match value with
  | some value => ofString (name ++ ":") ++ value
  | none => ofString name

/-- The bytes of a line. -/
def bytes : EventLine → Bytes
  | .name s => ofString ("event: " ++ s)
  | .data s => ofString ("data: " ++ s)
  | .blank => []
  | .comment text => field "" (some text)
  | .id value => field "id" value
  | .retry value => field "retry" value

/-- The text of a line that belongs to an event; comments and control fields belong to none. -/
def text? : EventLine → Option String
  | .name s => some ("event: " ++ s)
  | .data s => some ("data: " ++ s)
  | .blank => some ""
  | _ => none

/-- Whether a line belongs to an event. -/
def belongs (line : EventLine) : Bool := line.text?.isSome

theorem bytes_eq {line : EventLine} {s : String} (h : line.text? = some s) :
    line.bytes = ofString s := by
  cases line <;> simp_all [text?, bytes, ofString]

end EventLine

namespace Frame

/-- The lines of the data. -/
def dataLines (f : Frame) : List String := (f.data.toList.splitOn '\n').map String.ofList

/-- The lines of an event. -/
def eventLines (f : Frame) : List EventLine :=
  (f.name.map .name).toList ++ f.dataLines.map .data ++ [.blank]

/-- The name and the lines of the data can be sent as lines. -/
structure IsSendable (f : Frame) : Prop where
  name : ∀ s, f.name = some s → IsLine s
  data : ∀ s ∈ f.dataLines, IsLine s

theorem intercalate_dataLines (f : Frame) : "\n".intercalate f.dataLines = f.data := by
  have hlines : f.dataLines.map String.toList = f.data.toList.splitOn '\n' := by
    simp [dataLines, Function.comp_def]
  rw [← String.toList_inj, String.toList_intercalate, hlines]
  exact List.intercalate_splitOn '\n'

theorem IsSendable.isLine {f : Frame} (h : f.IsSendable) {line : EventLine}
    (hline : line ∈ f.eventLines) {s : String} (hs : line.text? = some s) : IsLine s := by
  simp only [eventLines, List.mem_append, Option.mem_toList, Option.map_eq_some_iff, List.mem_map,
    List.mem_singleton] at hline
  rcases hline with (⟨name, hname, rfl⟩ | ⟨text, htext, rfl⟩) | rfl
  · obtain rfl := Option.some.inj hs
    exact IsLine.append (by decide) (h.name name hname)
  · obtain rfl := Option.some.inj hs
    exact IsLine.append (by decide) (h.data text htext)
  · obtain rfl := Option.some.inj hs
    decide

theorem dataLines_ne_nil (f : Frame) : f.dataLines ≠ [] := by
  simp [dataLines]

end Frame

namespace Framer

variable {f : Framer}

theorem takeWhile_field {field : List Char} (h : ':' ∉ field) {rest : List Char}
    (hrest : ∀ c ∈ rest.head?, c = ':') : (field ++ rest).takeWhile (· != ':') = field := by
  have hfield : ∀ c ∈ field, (c != ':') = true := fun c hc =>
    bne_iff_ne.2 fun hcolon => h (hcolon ▸ hc)
  have hstop : rest.takeWhile (· != ':') = [] := by
    cases rest with
    | nil => rfl
    | cons c rest => simp [hrest c rfl]
  rw [List.takeWhile_append_of_pos hfield, hstop, List.append_nil]

/-- The field of a line is what stands before the first colon. -/
theorem splitField_fst {field : List Char} (h : ':' ∉ field) {rest : List Char}
    (hrest : ∀ c ∈ rest.head?, c = ':') : (splitField (field ++ rest)).1 = field := by
  simp only [splitField, takeWhile_field h hrest]
  split <;> rfl

/-- A space behind the colon is no part of the value. -/
theorem splitField_space {field : List Char} (h : ':' ∉ field) (value : List Char) :
    splitField (field ++ ':' :: ' ' :: value) = (field, value) := by
  have hcolon : ∀ c ∈ (':' :: ' ' :: value).head?, c = ':' := by simp
  simp only [splitField, takeWhile_field h hcolon]
  rw [← List.singleton_append, ← List.append_assoc, List.drop_left' (by simp)]
  rfl

theorem eventLine_name (f : Framer) (s : String) :
    f.eventLine ("event: " ++ s).toList = ({ f with name := some s }, []) := by
  have htext : ("event: " ++ s).toList = "event".toList ++ ':' :: ' ' :: s.toList := by
    rw [String.toList_append]
    rfl
  have hfield : ':' ∉ "event".toList := by decide
  rw [htext, eventLine, if_neg (by simp), splitField_space hfield]
  simp

theorem eventLine_data (f : Framer) (s : String) :
    f.eventLine ("data: " ++ s).toList = ({ f with data := f.data ++ [s] }, []) := by
  have htext : ("data: " ++ s).toList = "data".toList ++ ':' :: ' ' :: s.toList := by
    rw [String.toList_append]
    rfl
  have hfield : ':' ∉ "data".toList := by decide
  have hname : "data".toList ≠ "event".toList := by decide
  rw [htext, eventLine, if_neg (by simp), splitField_space hfield]
  simp only [hname, if_false, if_true, String.ofList_toList]

/-- A line whose field is neither the name nor the data changes nothing. -/
theorem eventLine_of_field (f : Framer) {field : List Char} (h : ':' ∉ field) {rest : List Char}
    (hrest : ∀ c ∈ rest.head?, c = ':') (hline : field ++ rest ≠ [])
    (hname : field ≠ "event".toList) (hdata : field ≠ "data".toList) :
    f.eventLine (field ++ rest) = (f, []) := by
  have hfst := splitField_fst h hrest
  rw [eventLine, if_neg (by simpa using hline)]
  cases hsplit : splitField (field ++ rest) with
  | mk found value =>
    obtain rfl : found = field := by rw [← hfst, hsplit]
    simp only [hname, hdata, if_false]

/-- A field with another name changes nothing, whatever bytes its value has and however it ends. -/
theorem eventLine_field (f : Framer) (name : String) (value : Option Bytes)
    (h : ':' ∉ name.toList) (hreturn : name.toList.getLast? ≠ some '\r')
    (hline : name ≠ "" ∨ value.isSome) (hname : name ≠ "event") (hdata : name ≠ "data")
    (e : LineEnd) :
    f.eventLine (lineText (EventLine.field name value ++ e.before)) = (f, []) := by
  have hname' : name.toList ≠ "event".toList := fun heq => hname (String.toList_inj.1 heq)
  have hdata' : name.toList ≠ "data".toList := fun heq => hdata (String.toList_inj.1 heq)
  cases value with
  | none =>
    have hne : name.toList ++ [] ≠ [] := by simpa using hline
    have hline := eventLine_of_field f h (by simp) hne hname' hdata'
    rwa [EventLine.field, lineText_ofString hreturn, ← List.append_nil name.toList]
  | some value =>
    have hcolon : (name ++ ":").toList = name.toList ++ [':'] := String.toList_append
    have hlast : (name ++ ":").toList.getLast? ≠ some '\r' := by simp [hcolon]
    obtain ⟨cs, hcs⟩ := exists_lineText_append hlast (value ++ e.before)
    rw [EventLine.field, List.append_assoc, hcs, hcolon, List.append_assoc]
    exact eventLine_of_field f h (by simp) (by simp) hname' hdata'

theorem eventLine_of_text?_eq_none (f : Framer) {line : EventLine} (h : line.text? = none)
    (e : LineEnd) : f.eventLine (lineText (line.bytes ++ e.before)) = (f, []) := by
  cases line with
  | comment text =>
    have hcomment := eventLine_field f "" (some text) (by decide) (by decide) (.inr rfl)
      (by decide) (by decide) e
    exact hcomment
  | id value =>
    have hid := eventLine_field f "id" value (by decide) (by decide) (.inl (by decide))
      (by decide) (by decide) e
    exact hid
  | retry value =>
    have hretry := eventLine_field f "retry" value (by decide) (by decide) (.inl (by decide))
      (by decide) (by decide) e
    exact hretry
  | _ => simp [EventLine.text?] at h

/-- The lines of a body are taken as if the comments and control fields were not there. -/
theorem takeLines_filterMap {f : Framer} (hf : f.framing = .events)
    {body : List (EventLine × LineEnd)}
    (h : ∀ line ∈ body, ∀ s, line.1.text? = some s → s.toList.getLast? ≠ some '\r') :
    f.takeLines (body.map fun line => lineText (line.1.bytes ++ line.2.before))
      = f.takeLines ((body.filterMap fun line => line.1.text?).map String.toList) := by
  induction body generalizing f with
  | nil => rfl
  | cons line rest ih =>
    have hrest : ∀ f : Framer, f.framing = .events → _ := fun f hf =>
      ih (f := f) hf fun l hl => h l (List.mem_cons_of_mem _ hl)
    have hevents : f.line (lineText (line.1.bytes ++ line.2.before))
        = f.eventLine (lineText (line.1.bytes ++ line.2.before)) := by rw [Framer.line, hf]
    cases htext : line.1.text? with
    | none =>
      simp only [List.map_cons, List.filterMap_cons, htext, takeLines, hevents,
        eventLine_of_text?_eq_none f htext, hrest f hf, List.nil_append]
    | some s =>
      have hlast := h line List.mem_cons_self s htext
      have hnext := (framing_line f s.toList).1.trans hf
      simp only [List.map_cons, List.filterMap_cons, htext, takeLines, EventLine.bytes_eq htext,
        lineText_ofString hlast, hrest _ hnext]

theorem takeLines_name (name : Option String) :
    takeLines { framing := .events } (name.toList.map fun s => ("event: " ++ s).toList)
      = ({ framing := .events, name }, []) := by
  cases name with
  | none => rfl
  | some s =>
    have hline : line { framing := .events } ("event: " ++ s).toList
        = ({ framing := .events, name := some s }, []) := eventLine_name _ s
    simp only [Option.toList_some, List.map_cons, List.map_nil, takeLines, hline, List.append_nil]

theorem takeLines_data (name : Option String) (data lines : List String) :
    takeLines { framing := .events, name, data } (lines.map fun s => ("data: " ++ s).toList)
      = ({ framing := .events, name, data := data ++ lines }, []) := by
  induction lines generalizing data with
  | nil => rw [List.append_nil]; rfl
  | cons s rest ih =>
    have hline : line { framing := .events, name, data } ("data: " ++ s).toList
        = ({ framing := .events, name, data := data ++ [s] }, []) := eventLine_data _ s
    simp only [List.map_cons, takeLines, hline, ih, List.append_assoc, List.singleton_append,
      List.nil_append]

theorem eventLines_texts (frame : Frame) :
    (frame.eventLines.filterMap EventLine.text?).map String.toList
      = frame.name.toList.map (fun s => ("event: " ++ s).toList)
        ++ frame.dataLines.map (fun s => ("data: " ++ s).toList) ++ [[]] := by
  have hdata : (frame.dataLines.map EventLine.data).filterMap EventLine.text?
      = frame.dataLines.map ("data: " ++ ·) := by
    induction frame.dataLines with
    | nil => rfl
    | cons s rest ih => rw [List.map_cons, List.map_cons, List.filterMap_cons, ih]; rfl
  rw [Frame.eventLines, List.filterMap_append, List.filterMap_append, hdata]
  cases frame.name <;> simp [EventLine.text?, Function.comp_def]

/-- The lines of an event give the event, and nothing of it stays. -/
theorem takeLines_eventLines (frame : Frame) :
    takeLines { framing := .events }
        ((frame.eventLines.filterMap EventLine.text?).map String.toList)
      = ({ framing := .events }, [frame]) := by
  have hblank : line { framing := .events, name := frame.name, data := frame.dataLines } []
      = ({ framing := .events }, [frame]) := by
    have hlines : frame.dataLines.isEmpty = false :=
      List.isEmpty_eq_false_iff.2 frame.dataLines_ne_nil
    simp only [line, eventLine, dispatch, List.isEmpty_nil, if_true, hlines, Bool.false_eq_true,
      if_false, frame.intercalate_dataLines]
  rw [eventLines_texts, takeLines_append, takeLines_append, takeLines_name]
  simp only [takeLines_data, List.nil_append, takeLines, hblank, List.append_nil]

theorem takeLines_flatMap_eventLines (frames : List Frame) :
    takeLines { framing := .events }
        (((frames.flatMap Frame.eventLines).filterMap EventLine.text?).map String.toList)
      = ({ framing := .events }, frames) := by
  induction frames with
  | nil => rfl
  | cons frame rest ih =>
    rw [List.flatMap_cons, List.filterMap_append, List.map_append, takeLines_append,
      takeLines_eventLines]
    simp only [ih, List.singleton_append]

/-- Events are given back as they were written, whatever comments and control fields stand between
their lines. -/
theorem readBody_events {frames : List Frame} (hframes : ∀ f ∈ frames, f.IsSendable)
    {body : List (EventLine × LineEnd)}
    (hother : ∀ line ∈ body, line.1.belongs = false → 0x0A ∉ line.1.bytes)
    (hbody : (body.map Prod.fst).filter EventLine.belongs = frames.flatMap Frame.eventLines)
    {chunks : List Bytes}
    (hchunks : chunks.flatten = body.flatMap fun l => l.1.bytes ++ l.2.before ++ [0x0A]) :
    (readBody { framing := .events } chunks).2 = frames := by
  have hline : ∀ line ∈ body, ∀ s, line.1.text? = some s → IsLine s := by
    intro line hline s hs
    have hmem : line.1 ∈ frames.flatMap Frame.eventLines := by
      rw [← hbody, List.mem_filter]
      exact ⟨List.mem_map_of_mem hline, by rw [EventLine.belongs, hs]; rfl⟩
    obtain ⟨frame, hframe, hmem⟩ := List.mem_flatMap.1 hmem
    exact (hframes frame hframe).isLine hmem hs
  have hfeed : ∀ bytes ∈ body.map (fun l => l.1.bytes ++ l.2.before), 0x0A ∉ bytes := by
    intro bytes hbytes
    obtain ⟨line, hmem, rfl⟩ := List.mem_map.1 hbytes
    have hwritten : 0x0A ∉ line.1.bytes := by
      cases hs : line.1.text? with
      | none => exact hother line hmem (by rw [EventLine.belongs, hs]; rfl)
      | some s =>
        rw [EventLine.bytes_eq hs]
        exact notMem_ofString (hline line hmem s hs).1
    exact fun h => (List.mem_append.1 h).elim hwritten line.2.notMem_before
  have htexts : body.filterMap (fun l => l.1.text?)
      = (frames.flatMap Frame.eventLines).filterMap EventLine.text? := by
    rw [← hbody, List.filterMap_filter, List.filterMap_map]
    refine List.filterMap_congr fun line _ => ?_
    cases hs : line.1.text? <;> simp [EventLine.belongs, hs]
  have hflat : chunks.flatten
      = (body.map fun l => l.1.bytes ++ l.2.before).flatMap (· ++ [0x0A]) ++ [] := by
    rw [hchunks, List.flatMap_map, List.append_nil]
  have hlines : (body.map fun l => l.1.bytes ++ l.2.before).map lineText
      = body.map fun l => lineText (l.1.bytes ++ l.2.before) := List.map_map
  rw [readBody_lines .events hfeed List.not_mem_nil hflat, hlines,
    takeLines_filterMap rfl fun line hmem s hs => (hline line hmem s hs).2, htexts,
    takeLines_flatMap_eventLines]
  exact List.append_nil _

end Framer

/-! ## One text to a line -/

/-- Whether a text is but white space. -/
def isBlankText (s : String) : Bool := s.toList.all isBlank

/-- A text that fits on a line and has no white space at its ends. -/
structure IsTrimmed (s : String) : Prop where
  nonempty : s ≠ ""
  feed : '\n' ∉ s.toList
  first : ∀ c ∈ s.toList.head?, isBlank c = false
  last : ∀ c ∈ s.toList.getLast?, isBlank c = false

theorem dropWhile_eq_self {p : Char → Bool} {cs : List Char} (h : ∀ c ∈ cs.head?, p c = false) :
    cs.dropWhile p = cs := by
  cases cs with
  | nil => rfl
  | cons c rest => simp [h c rfl]

theorem IsTrimmed.trim_eq {s : String} (h : IsTrimmed s) : trim s.toList = s.toList := by
  have hlast : ∀ c ∈ s.toList.reverse.head?, isBlank c = false := by
    rw [List.head?_reverse]
    exact h.last
  rw [trim, dropWhile_eq_self h.first, trimEnd, dropWhile_eq_self hlast, List.reverse_reverse]

theorem IsTrimmed.not_isBlankText {s : String} (h : IsTrimmed s) : ¬ isBlankText s := by
  intro hblank
  cases hcs : s.toList with
  | nil => exact h.nonempty (String.toList_eq_nil_iff.1 hcs)
  | cons c rest =>
    have hfirst := h.first c (by simp [hcs])
    have hall := List.all_eq_true.1 hblank c (by simp [hcs])
    exact absurd (hall.symm.trans hfirst) (by decide)

theorem trim_eq_nil {cs : List Char} (h : ∀ c ∈ cs, isBlank c) : trim cs = [] := by
  have hdrop : cs.dropWhile isBlank = [] := List.dropWhile_eq_nil_iff.2 h
  rw [trim, hdrop]
  rfl

namespace Framer

/-- The frame of a line, unless the line is blank. -/
def lineFrames (line : List Char) : List Frame :=
  if (trim line).isEmpty then [] else [⟨none, String.ofList (trim line)⟩]

theorem takeLines_lines (lines : List (List Char)) :
    takeLines { framing := .lines } lines = ({ framing := .lines }, lines.flatMap lineFrames) := by
  induction lines with
  | nil => rfl
  | cons line rest ih =>
    have hline : Framer.line { framing := .lines } line
        = ({ framing := .lines }, lineFrames line) := rfl
    simp only [takeLines, hline, ih, List.flatMap_cons]

theorem finish_lines (last : Bytes) :
    (finish { framing := .lines, pending := last }).2
      = if last = [] then [] else lineFrames (restText last) := by
  have hnothing : (dispatch { framing := .lines }).2 = [] := rfl
  by_cases hlast : last = []
  · subst hlast
    rfl
  · have hline : line { framing := .lines, pending := [] } (restText last)
        = ({ framing := .lines }, lineFrames (restText last)) := rfl
    rw [finish, if_neg (mt List.isEmpty_iff.1 hlast), if_neg hlast]
    simp only [hline, hnothing, List.append_nil]

/-- At most a carriage return at its end is lost of a text on a line. -/
theorem prefix_lineText (s : String) (e : LineEnd) :
    lineText (ofString s ++ e.before) <+: s.toList := by
  cases e with
  | returnLineFeed =>
    refine ⟨[], ?_⟩
    rw [LineEnd.before, lineText, if_pos List.getLast?_concat, List.dropLast_concat,
      lenientText_ofString, List.append_nil]
  | lineFeed =>
    rw [LineEnd.before, List.append_nil, lineText]
    split
    case isTrue hreturn =>
      obtain ⟨cs, hcs⟩ := List.getLast?_eq_some_iff.1
        (Bytes.getLast?_of_getLast?_ofString hreturn (by decide))
      have hbytes : ofString s = ofString (String.ofList cs) ++ [0x0D] := by
        rw [ofString, hcs, List.flatMap_append, ofString, String.toList_ofList]
        rfl
      rw [hbytes, List.dropLast_concat, lenientText_ofString, String.toList_ofList, hcs]
      exact List.prefix_append _ _
    case isFalse =>
      refine ⟨[], ?_⟩
      rw [lenientText_ofString, List.append_nil]

theorem restText_ofString (s : String) :
    restText (ofString s) = (s.toList.reverse.dropWhile (· == '\r')).reverse := by
  rw [restText, lenientText_ofString]

theorem lineFrames_of_blank {cs : List Char} {s : String} (h : isBlankText s)
    (hcs : ∀ c ∈ cs, c ∈ s.toList) : lineFrames cs = [] := by
  have hblank := List.all_eq_true.1 h
  rw [lineFrames, trim_eq_nil fun c hc => hblank c (hcs c hc)]
  rfl

theorem lineFrames_of_trimmed {s : String} (h : IsTrimmed s) :
    lineFrames s.toList = [⟨none, s⟩] := by
  have hne : ¬ s.toList.isEmpty := by simpa using h.nonempty
  rw [lineFrames, h.trim_eq, if_neg hne, String.ofList_toList]

/-- A text on a line is given back, and a blank line gives nothing. -/
theorem lineFrames_lineText {s : String} (h : isBlankText s ∨ IsTrimmed s) (e : LineEnd) :
    lineFrames (lineText (ofString s ++ e.before))
      = if isBlankText s then [] else [⟨none, s⟩] := by
  rcases h with hblank | htrimmed
  · rw [if_pos hblank]
    exact lineFrames_of_blank hblank fun c hc => (prefix_lineText s e).subset hc
  · have hlast : s.toList.getLast? ≠ some '\r' := fun h => by
      simpa using (htrimmed.last '\r' h).symm.trans (by decide : isBlank '\r' = true)
    rw [if_neg htrimmed.not_isBlankText, lineText_ofString hlast, lineFrames_of_trimmed htrimmed]

/-- So is a text whose line only the end of the body ends. -/
theorem finish_ofString {s : String} (h : isBlankText s ∨ IsTrimmed s) :
    (finish { framing := .lines, pending := ofString s }).2
      = if isBlankText s then [] else [⟨none, s⟩] := by
  rw [finish_lines]
  rcases h with hblank | htrimmed
  · have hsub : ∀ c ∈ restText (ofString s), c ∈ s.toList := by
      intro c hc
      rw [restText_ofString, List.mem_reverse] at hc
      exact List.mem_reverse.1 ((List.dropWhile_suffix _).subset hc)
    rw [if_pos hblank, lineFrames_of_blank hblank hsub, ite_self]
  · have hne : ofString s ≠ [] := by
      intro hnil
      have htext := lenientText_ofString s
      rw [hnil] at htext
      exact htrimmed.nonempty htext.symm
    have hrest : restText (ofString s) = s.toList := by
      have hlast : ∀ c ∈ s.toList.reverse.head?, (c == '\r') = false := by
        intro c hc
        rw [List.head?_reverse] at hc
        refine beq_eq_false_iff_ne.2 fun hreturn => ?_
        exact absurd ((htrimmed.last c hc).symm.trans (by rw [hreturn])) (by decide)
      rw [restText_ofString, dropWhile_eq_self hlast, List.reverse_reverse]
    rw [if_neg hne, if_neg htrimmed.not_isBlankText, hrest, lineFrames_of_trimmed htrimmed]

theorem flatMap_frames (ss : List String) :
    (ss.flatMap fun s => if isBlankText s then [] else [(⟨none, s⟩ : Frame)])
      = (ss.filter (!isBlankText ·)).map (⟨none, ·⟩) := by
  induction ss with
  | nil => rfl
  | cons s rest ih =>
    by_cases h : isBlankText s <;> simp [h, ih]

/-- Texts that are written one to a line are given back, whatever blank lines stand between them and
whether or not the last line is ended. -/
theorem readBody_texts {texts : List String} (htexts : ∀ s ∈ texts, IsTrimmed s)
    {lines : List (String × LineEnd)} {last : String}
    (hblank : ∀ s ∈ lines.map Prod.fst ++ [last], isBlankText s → '\n' ∉ s.toList)
    (hlines : (lines.map Prod.fst ++ [last]).filter (!isBlankText ·) = texts)
    {chunks : List Bytes}
    (hchunks : chunks.flatten
      = (lines.flatMap fun l => ofString l.1 ++ l.2.before ++ [0x0A]) ++ ofString last) :
    (readBody { framing := .lines } chunks).2 = texts.map (⟨none, ·⟩) := by
  have hcase : ∀ s ∈ lines.map Prod.fst ++ [last], isBlankText s ∨ IsTrimmed s := by
    intro s hs
    by_cases h : isBlankText s
    · exact .inl h
    · exact .inr (htexts s (hlines ▸ List.mem_filter.2 ⟨hs, by simpa using h⟩))
  have hfeed : ∀ s ∈ lines.map Prod.fst ++ [last], 0x0A ∉ ofString s := by
    intro s hs
    rcases hcase s hs with h | h
    · exact notMem_ofString (hblank s hs h)
    · exact notMem_ofString h.feed
  have hfst : ∀ l ∈ lines, l.1 ∈ lines.map Prod.fst ++ [last] := fun l hl =>
    List.mem_append_left _ (List.mem_map_of_mem hl)
  have hlast : last ∈ lines.map Prod.fst ++ [last] :=
    List.mem_append_right _ (List.mem_singleton_self last)
  have hbytes : ∀ bytes ∈ lines.map (fun l => ofString l.1 ++ l.2.before), 0x0A ∉ bytes := by
    intro bytes hbytes
    obtain ⟨l, hl, rfl⟩ := List.mem_map.1 hbytes
    exact fun h => (List.mem_append.1 h).elim (hfeed l.1 (hfst l hl)) l.2.notMem_before
  have hflat : chunks.flatten
      = (lines.map fun l => ofString l.1 ++ l.2.before).flatMap (· ++ [0x0A]) ++ ofString last := by
    rw [hchunks, List.flatMap_map]
  have hframes : ((lines.map fun l => ofString l.1 ++ l.2.before).map lineText).flatMap lineFrames
      = (lines.map Prod.fst).flatMap fun s => if isBlankText s then [] else [⟨none, s⟩] := by
    rw [List.map_map, List.flatMap_map, List.flatMap_map]
    exact List.flatMap_congr fun l hl => lineFrames_lineText (hcase l.1 (hfst l hl)) l.2
  rw [readBody_lines .lines hbytes (hfeed last hlast) hflat, takeLines_lines, hframes,
    finish_ofString (hcase last hlast), ← hlines, flatMap_frames, List.filter_append,
    List.map_append]
  congr 1
  by_cases h : isBlankText last <;> simp [h]

/-- What a sender renders is given back, in whatever chunks it comes: events, with comments and
control fields between their lines, and texts one to a line, with blank lines between them. -/
theorem readBody_rendered (chunks : List Bytes) :
    (∀ (frames : List Frame) (body : List (EventLine × LineEnd)),
      (∀ f ∈ frames, f.IsSendable) →
      (∀ line ∈ body, line.1.belongs = false → 0x0A ∉ line.1.bytes) →
      (body.map Prod.fst).filter EventLine.belongs = frames.flatMap Frame.eventLines →
      chunks.flatten = (body.flatMap fun l => l.1.bytes ++ l.2.before ++ [0x0A]) →
      (readBody { framing := .events } chunks).2 = frames) ∧
    (∀ (texts : List String) (lines : List (String × LineEnd)) (last : String),
      (∀ s ∈ texts, IsTrimmed s) →
      (∀ s ∈ lines.map Prod.fst ++ [last], isBlankText s → '\n' ∉ s.toList) →
      (lines.map Prod.fst ++ [last]).filter (!isBlankText ·) = texts →
      chunks.flatten
        = (lines.flatMap fun l => ofString l.1 ++ l.2.before ++ [0x0A]) ++ ofString last →
      (readBody { framing := .lines } chunks).2 = texts.map (⟨none, ·⟩)) :=
  ⟨fun _ _ hframes hother hbody hchunks => readBody_events hframes hother hbody hchunks,
    fun _ _ _ htexts hblank hlines hchunks => readBody_texts htexts hblank hlines hchunks⟩

/-- Two events, a comment in the middle of the first and an id behind its name. -/
def commentedBody : List (EventLine × LineEnd) :=
  [(.name "delta", .lineFeed), (.id (some [0x37]), .lineFeed), (.data "é:", .returnLineFeed),
    (.comment [0xFF], .lineFeed), (.data "", .lineFeed), (.data " 1", .lineFeed),
    (.blank, .returnLineFeed), (.retry none, .lineFeed), (.data "[DONE]", .lineFeed),
    (.blank, .lineFeed)]

/-- Two texts with a blank line between them; nothing ends the last line. -/
def unendedBody : List (String × LineEnd) := [("é 1", .returnLineFeed), (" ", .lineFeed)]

/-- A body in two chunks, the first of a length that may end inside of a letter. -/
def cutAt (n : Nat) (body : Bytes) : List Bytes := [body.take n, body.drop n]

theorem flatten_cutAt (n : Nat) (body : Bytes) : (cutAt n body).flatten = body := by
  simp [cutAt]

theorem readBody_rendered_commented :
    (readBody { framing := .events }
        (cutAt 26 (commentedBody.flatMap fun l => l.1.bytes ++ l.2.before ++ [0x0A]))).2
      = [⟨some "delta", "é:\n\n 1"⟩, ⟨none, "[DONE]"⟩] ∧
    (readBody { framing := .lines }
        (cutAt 1 ((unendedBody.flatMap fun l => ofString l.1 ++ l.2.before ++ [0x0A])
          ++ ofString "2"))).2
      = ["é 1", "2"].map (⟨none, ·⟩) := by
  have hsendable : ∀ f ∈ ([⟨some "delta", "é:\n\n 1"⟩, ⟨none, "[DONE]"⟩] : List Frame),
      f.IsSendable := by
    intro f hf
    simp only [List.mem_cons, List.not_mem_nil, or_false] at hf
    rcases hf with rfl | rfl
    · exact ⟨fun s hs => Option.some.inj hs ▸ by decide, by decide +kernel⟩
    · exact ⟨fun s hs => (Option.some_ne_none s hs.symm).elim, by decide +kernel⟩
  have htrimmed : ∀ s ∈ ["é 1", "2"], IsTrimmed s := by
    intro s hs
    simp only [List.mem_cons, List.not_mem_nil, or_false] at hs
    rcases hs with rfl | rfl
    · exact ⟨by decide, by decide, fun c hc => Option.some.inj hc ▸ by decide,
        fun c hc => Option.some.inj hc ▸ by decide⟩
    · exact ⟨by decide, by decide, fun c hc => Option.some.inj hc ▸ by decide,
        fun c hc => Option.some.inj hc ▸ by decide⟩
  refine ⟨(readBody_rendered _).1 _ commentedBody hsendable (by decide +kernel) ?_
      (flatten_cutAt _ _),
    (readBody_rendered _).2 _ unendedBody "2" htrimmed (by decide +kernel) (by decide +kernel)
      (flatten_cutAt _ _)⟩
  rfl

end Framer

end ChatWire
