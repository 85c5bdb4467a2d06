import ChatWire.Error
import ChatWire.Text.Blank

/-!
# Frames

A streamed body is cut into frames, either by server-sent events or one to a line. The body comes in
chunks that may end anywhere, also inside of a character; a `Framer` keeps the bytes behind the last
line feed until a later chunk ends their line. A carriage return before a line feed belongs to the
line's end.
-/

namespace ChatWire

/-- One unit of a streamed body. -/
structure Frame where
  /-- The name of the event, where the framing has names. -/
  name : Option String := none
  /-- The data. -/
  data : String
deriving DecidableEq

/-- How a body is cut into frames. -/
inductive Framing where
  /-- Server-sent events. -/
  | events
  /-- One frame to a line that is not blank. -/
  | lines
deriving DecidableEq, Repr

/-- The framing of a provider's streams. -/
def Framing.ofProvider : Provider → Framing
  | .ollama => .lines
  | _ => .events

/-- What has been read and is not yet part of a frame. -/
structure Framer where
  /-- How the body is cut. -/
  framing : Framing
  /-- The bytes of the unfinished line. -/
  pending : Bytes := []
  /-- The name of the unfinished event. -/
  name : Option String := none
  /-- The data lines of the unfinished event. -/
  data : List String := []
deriving DecidableEq

namespace Framer

/-- Ends the unfinished event. Without data it gives no frame, and its name is forgotten. -/
def dispatch (f : Framer) : Framer × List Frame :=
  if f.data.isEmpty then ({ f with name := none }, [])
  else ({ f with name := none, data := [] }, [⟨f.name, "\n".intercalate f.data⟩])

/-- A line as field and value, cut at the first colon; one space behind the colon belongs to the
cut, and without a colon the value is empty. -/
def splitField (line : List Char) : List Char × List Char :=
  let field := line.takeWhile (· != ':')
  match line.drop (field.length + 1) with
  | ' ' :: value => (field, value)
  | value => (field, value)

/-- Takes a line of server-sent events. A blank line ends the event, a line that begins with a colon
is a comment, and fields other than name and data are passed over. -/
def eventLine (f : Framer) (line : List Char) : Framer × List Frame :=
  if line.isEmpty then f.dispatch
  else
    let (field, value) := splitField line
    if field = "event".toList then ({ f with name := some (String.ofList value) }, [])
    else if field = "data".toList then
      ({ f with data := f.data ++ [String.ofList value] }, [])
    else (f, [])

/-- Takes a line. -/
def line (f : Framer) (line : List Char) : Framer × List Frame :=
  match f.framing with
  | .events => f.eventLine line
  | .lines =>
    let text := trim line
    (f, if text.isEmpty then [] else [⟨none, String.ofList text⟩])

/-- Takes lines one after the other. -/
def takeLines (f : Framer) : List (List Char) → Framer × List Frame
  | [] => (f, [])
  | line :: rest =>
    let (f, first) := f.line line
    let (f, more) := f.takeLines rest
    (f, first ++ more)

/-- The lines that end within the bytes, without their line feeds, and the bytes of the line that
does not. -/
def splitLines : Bytes → List Bytes × Bytes
  | [] => ([], [])
  | b :: rest =>
    let (lines, last) := splitLines rest
    if b = 0x0A then ([] :: lines, last)
    else match lines with
      | [] => ([], b :: last)
      | line :: lines => ((b :: line) :: lines, last)

/-- The text of a line whose line feed has come. -/
def lineText (line : Bytes) : List Char :=
  (Bytes.lenientText (if line.getLast? = some 0x0D then line.dropLast else line)).toList

/-- The text of a line that the end of the body ends; no carriage return is left at its end. -/
def restText (rest : Bytes) : List Char :=
  ((Bytes.lenientText rest).toList.reverse.dropWhile (· == '\r')).reverse

/-- Takes a chunk of the body: the frames that it completes. -/
def feed (f : Framer) (chunk : Bytes) : Framer × List Frame :=
  let (lines, last) := splitLines (f.pending ++ chunk)
  { f with pending := last }.takeLines (lines.map lineText)

/-- Ends the body: what is left is a last line and the end of an event. -/
def finish (f : Framer) : Framer × List Frame :=
  let (f, last) :=
    if f.pending.isEmpty then (f, []) else { f with pending := [] }.line (restText f.pending)
  let (f, rest) := f.dispatch
  (f, last ++ rest)

end Framer

/-! ## Bodies in chunks -/

/-- The frames of a body that comes in chunks, with the framer that has read what came before. A
failure of the connection ends them, and what was not yet a frame is lost. -/
def Framer.frames (f : Framer) : List (Except Error Bytes) → List (Except Error Frame)
  | [] => f.finish.2.map .ok
  | .error e :: _ => [.error e]
  | .ok chunk :: rest =>
    let (f, frames) := f.feed chunk
    frames.map .ok ++ f.frames rest

/-- The frames of a body that comes in chunks. -/
def Framing.frames (framing : Framing) (chunks : List (Except Error Bytes)) :
    List (Except Error Frame) :=
  Framer.frames { framing } chunks

/-- All bytes of a body in chunks, if the connection did not fail. -/
def wholeBody? (chunks : List (Except Error Bytes)) : Option Bytes :=
  (chunks.mapM Except.toOption).map List.flatten

/-- The frames of a response. One whose status is no success has none; its body is the text of an
error, empty where it could not be read. -/
def Framing.responseFrames (framing : Framing) (status : Nat) (chunks : List (Except Error Bytes)) :
    List (Except Error Frame) :=
  if 200 ≤ status && status < 300 then framing.frames chunks
  else [.error (.reported (toString status) (((wholeBody? chunks).map Bytes.markedText).getD ""))]

end ChatWire
