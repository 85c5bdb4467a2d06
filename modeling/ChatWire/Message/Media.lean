import ChatWire.Text.Bytes

/-!
# Media

An attachment is media of a stated type that travels inside a message or is fetched from an address.
-/

namespace ChatWire

/-- The broad classes of media. -/
inductive MediaClass where
  /-- Pictures. -/
  | image
  /-- Moving pictures. -/
  | video
  /-- Sound. -/
  | audio
  /-- Everything else. -/
  | document
deriving DecidableEq, Repr

/-- The class of a media type: its part before the first slash, whatever its case. -/
def MediaClass.ofType (mediaType : String) : MediaClass :=
  match String.ofList ((mediaType.toList.takeWhile (· != '/')).map Char.toLower) with
  | "image" => .image
  | "video" => .video
  | "audio" => .audio
  | _ => .document

/-- The name of a class. -/
def MediaClass.name : MediaClass → String
  | .image => "image"
  | .video => "video"
  | .audio => "audio"
  | .document => "document"

/-- Where the bytes of an attachment are. -/
inductive MediaSource where
  /-- In the message itself. -/
  | inline (bytes : Bytes)
  /-- At an address. -/
  | address (uri : String)
deriving DecidableEq

/-- Media attached to a message. -/
structure Attachment where
  /-- The media type. -/
  mediaType : String
  /-- Where the bytes are. -/
  source : MediaSource
deriving DecidableEq

namespace Attachment

/-- The class of the attached media. -/
def mediaClass (a : Attachment) : MediaClass := .ofType a.mediaType

/-- Why parts make no attachment. -/
inductive Fault where
  /-- The media type is empty. -/
  | missingType
  /-- There are bytes and an address. -/
  | twoSources
  /-- There are neither bytes nor an address. -/
  | noSource
deriving DecidableEq, Repr

/-- What a fault says. -/
def Fault.message : Fault → String
  | .missingType => "missing MIME type"
  | .twoSources => "both inline data and a URI were supplied"
  | .noSource => "neither inline data nor a URI was supplied"

/-- The attachment of a media type and exactly one source. -/
def ofParts (mediaType : String) (bytes : Option Bytes) (uri : Option String) :
    Except Fault Attachment :=
  if mediaType.isEmpty then .error .missingType
  else match bytes, uri with
    | some bytes, none => .ok ⟨mediaType, .inline bytes⟩
    | none, some uri => .ok ⟨mediaType, .address uri⟩
    | some _, some _ => .error .twoSources
    | none, none => .error .noSource

end Attachment

/-! ## Media types of files -/

/-- The last component of a path that names something: empty components, and dots that stand for the
directory itself, are passed over; two dots name nothing. -/
def fileName? (path : List Char) : Option (List Char) :=
  match ((path.splitOn '/').filter fun part => !part.isEmpty && part != ['.']).getLast? with
  | some ['.', '.'] => none
  | part => part

/-- The characters behind the last dot of a file name; a dot in front is part of the name. -/
def fileExtension (name : List Char) : List Char :=
  let behind := name.reverse.takeWhile (· != '.')
  if behind.length + 1 < name.length then behind.reverse else []

/-- The media type that the extension of a path or address tells; `fallback` when it tells none. A
query or fragment behind the path is not looked at. -/
def mediaTypeOfPath (path : String) (fallback : String) : String :=
  let path := path.toList.takeWhile fun c => c != '?' && c != '#'
  let extension := ((fileName? path).map fileExtension).getD []
  match String.ofList (extension.map Char.toLower) with
  | "jpg" | "jpeg" => "image/jpeg"
  | "png" => "image/png"
  | "gif" => "image/gif"
  | "webp" => "image/webp"
  | "pdf" => "application/pdf"
  | "txt" => "text/plain"
  | "mp4" => "video/mp4"
  | "mp3" => "audio/mpeg"
  | "wav" => "audio/wav"
  | _ => fallback

end ChatWire
