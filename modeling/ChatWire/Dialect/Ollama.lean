import ChatWire.Dialect.Basic
import ChatWire.Message.Outcome

/-!
# The local chat format

A message is one text and after it images without media types, so at most one text can be written
and no image before it. An image read back gets the media type that its first bytes tell. The
model's reasoning goes into the message's metadata under `thoughtKey`.
-/

namespace ChatWire.Ollama

open Dialect

/-- The metadata key of the model's reasoning. -/
def thoughtKey : String := "thought"

/-! ## Writing -/

/-- An error about something that the format cannot say. -/
def unsupported {α : Type} (what : Unsupported) : Except Error α :=
  .error (.unsupported .ollama what)

/-- An image in base64. -/
def encodeImage (a : Attachment) : Except Error String :=
  if a.mediaClass = .image then
    match a.source with
    | .inline bytes => .ok (Base64.encodeText bytes)
    | .address _ => unsupported .addressedAttachments
  else unsupported (.attachments a.mediaType)

/-- A message while it is written. -/
structure Draft where
  /-- The text, if it came. -/
  text : Option String := none
  /-- The images so far. -/
  images : List Json := []

/-- Writes one more block into a draft. -/
def Draft.add (d : Draft) : Block → Except Error Draft
  | .text s =>
    if d.text.isSome then unsupported .secondText
    else if !d.images.isEmpty then unsupported .textAfterImage
    else .ok { d with text := some s }
  | .attachment a => do return { d with images := d.images ++ [.string (← encodeImage a)] }
  | block => unsupported (.blocks block.kindName)

/-- Writes a message. -/
def encodeMessage (m : Message) : Except Error Json := do
  let draft ← m.content.foldlM Draft.add {}
  return Json.ofMembers [some ("content", .string (draft.text.getD "")),
    if draft.images.isEmpty then none else some ("images", .array draft.images),
    some ("role", .string m.role.name)]

/-! ## Reading -/

/-- The media type that the first bytes of an image tell. -/
def sniffImageType : Bytes → String
  | 0x89 :: 0x50 :: 0x4E :: 0x47 :: _ => "image/png"
  | 0xFF :: 0xD8 :: 0xFF :: _ => "image/jpeg"
  | 0x47 :: 0x49 :: 0x46 :: 0x38 :: _ => "image/gif"
  | 0x52 :: 0x49 :: 0x46 :: 0x46 :: _ :: _ :: _ :: _ :: 0x57 :: 0x45 :: 0x42 :: 0x50 :: _ =>
    "image/webp"
  | _ => "image/jpeg"

/-- The attachment of an image. -/
def decodeImage (image : Json) : Except Error Block :=
  match image.text? with
  | none => .error (.malformedValue .ollama (.other "image must be a base64 string") image)
  | some encoded => do
    let bytes ← requireBase64 .ollama encoded
    return .attachment ⟨sniffImageType bytes, .inline bytes⟩

/-- The role of a name. -/
def decodeRole (value : Json) : Except Error Role := do
  let name ← requireText .ollama value "role"
  match Role.ofName? name with
  | some role => return role
  | none => .error (.malformedValue .ollama (.unknownRole name) value)

/-- Reads a message. -/
def decodeMessage (value : Json) : Except Error Message := do
  let role ← decodeRole value
  let text := value.textOrEmpty "content"
  let images ← ((value.get "images").elements?.getD []).mapM decodeImage
  let thought := value.textOrEmpty "thinking"
  return {
    role
    content := (if text.isEmpty then [] else [.text text]) ++ images
    metadata := if thought.isEmpty then .empty
      else Table.empty.insert thoughtKey (.string thought) }

/-- The token counts of a reply. -/
def decodeUsage (value : Json) : TokenUsage where
  input := value.countOrZero "prompt_eval_count"
  output := value.countOrZero "eval_count"

/-- Reads a reply. -/
def decodeReply (body : Bytes) : Except Error Reply := do
  let value ← parseBody .ollama body
  if let some error := (value.get "error").text? then throw (.reported "error" error)
  let message ← decodeMessage (value.get "message")
  let stopReason := (value.get "done_reason").text?.map (.classify .ollama)
  return ⟨{ message with stopReason }, decodeUsage value⟩

end ChatWire.Ollama
