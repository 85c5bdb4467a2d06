import ChatWire.Dialect.Ollama
import ChatWire.Proofs.Dialect.Basic
import ChatWire.Proofs.Message.Media

/-!
# Round trips in the local chat format

A message can be written exactly if it is a text and after it images, both of which may be missing
(`Ollama.isWritable_iff_exists`). It comes back without the text if that was empty, and with the
types of images that their signatures tell (`Ollama.roundTrip_sniffed`).
-/

namespace ChatWire.Ollama

open Dialect

/-! ## What can be written -/

/-- An image that travels inside of the message. -/
def IsInlineImage (b : Block) : Prop :=
  ∃ mediaType bytes, MediaClass.ofType mediaType = .image ∧
    b = .attachment ⟨mediaType, .inline bytes⟩

/-- Texts and images, of which at most one is a text and no image stands in front of it. -/
structure IsWritable (content : List Block) : Prop where
  kinds : ∀ b ∈ content, (∃ s, b = .text s) ∨ IsInlineImage b
  oneText : (content.filterMap Block.text?).length ≤ 1
  textFirst : ∀ before s behind, content = before ++ .text s :: behind →
    ∀ b ∈ before, ¬ IsInlineImage b

/-- The blocks of images, each given by its type and its bytes. -/
def imageBlocks (images : List (String × Bytes)) : List Block :=
  images.map fun i => .attachment ⟨i.1, .inline i.2⟩

theorem exists_imageBlocks {content : List Block} (h : ∀ b ∈ content, IsInlineImage b) :
    ∃ images, (∀ i ∈ images, MediaClass.ofType i.1 = .image) ∧ content = imageBlocks images := by
  induction content with
  | nil => exact ⟨[], by simp, rfl⟩
  | cons b rest ih =>
    obtain ⟨mediaType, bytes, himage, rfl⟩ := h b List.mem_cons_self
    obtain ⟨images, himages, rfl⟩ := ih fun c hc => h c (List.mem_cons_of_mem _ hc)
    exact ⟨(mediaType, bytes) :: images, List.forall_mem_cons.2 ⟨himage, himages⟩, rfl⟩

theorem text_notMem_imageBlocks (s : String) (images : List (String × Bytes)) :
    Block.text s ∉ imageBlocks images := by
  simp [imageBlocks]

theorem isWritable_iff_exists {content : List Block} :
    IsWritable content ↔ ∃ (text : Option String) (images : List (String × Bytes)),
      (∀ i ∈ images, MediaClass.ofType i.1 = .image) ∧
        content = text.toList.map .text ++ imageBlocks images := by
  constructor
  · rintro ⟨hkinds, hone, hfirst⟩
    cases content with
    | nil => exact ⟨none, [], by simp, rfl⟩
    | cons b rest =>
      rcases hkinds b List.mem_cons_self with ⟨s, rfl⟩ | himage
      · -- There is no second text behind the first.
        have hrest : ∀ c ∈ rest, IsInlineImage c := by
          intro c hc
          refine (hkinds c (List.mem_cons_of_mem _ hc)).resolve_left ?_
          rintro ⟨s', rfl⟩
          have hmem : s' ∈ rest.filterMap Block.text? := List.mem_filterMap.2 ⟨_, hc, rfl⟩
          have hpos := List.length_pos_of_mem hmem
          simp only [List.filterMap_cons, Block.text?, List.length_cons] at hone hpos
          omega
        obtain ⟨images, himages, rfl⟩ := exists_imageBlocks hrest
        exact ⟨some s, images, himages, rfl⟩
      · -- There is no text behind an image.
        have hall : ∀ c ∈ b :: rest, IsInlineImage c := by
          intro c hc
          refine (hkinds c hc).resolve_left ?_
          rintro ⟨s, rfl⟩
          rcases List.mem_cons.1 hc with rfl | hc
          · obtain ⟨_, _, -, h⟩ := himage
            cases h
          · obtain ⟨before, behind, rfl⟩ := List.append_of_mem hc
            exact hfirst (b :: before) s behind rfl b List.mem_cons_self himage
        obtain ⟨images, himages, h⟩ := exists_imageBlocks hall
        exact ⟨none, images, himages, h⟩
  · rintro ⟨text, images, himages, rfl⟩
    refine ⟨?_, ?_, ?_⟩
    · intro b hb
      rcases List.mem_append.1 hb with hb | hb
      · obtain ⟨s, -, rfl⟩ := List.mem_map.1 hb
        exact .inl ⟨s, rfl⟩
      · obtain ⟨i, hi, rfl⟩ := List.mem_map.1 hb
        exact .inr ⟨i.1, i.2, himages i hi, rfl⟩
    · have hnone : (imageBlocks images).filterMap Block.text? = [] := by
        simp [imageBlocks, Block.text?]
      rw [List.filterMap_append, hnone]
      cases text <;> simp [Block.text?]
    · intro before s behind h b hb
      have hbehind : Block.text s ∈ before ++ .text s :: behind := by simp
      cases text with
      | none =>
        rw [← h] at hbehind
        exact absurd hbehind (text_notMem_imageBlocks s images)
      | some t =>
        cases before with
        | nil => cases hb
        | cons c before =>
          have hrest : imageBlocks images = before ++ .text s :: behind := (List.cons.inj h).2
          exact absurd (hrest ▸ by simp) (text_notMem_imageBlocks s images)

/-! ## Writing -/

theorem encodeImage_eq_ok_iff {a : Attachment} {encoded : String} :
    encodeImage a = .ok encoded ↔ ∃ mediaType bytes, MediaClass.ofType mediaType = .image ∧
      a = ⟨mediaType, .inline bytes⟩ ∧ encoded = Base64.encodeText bytes := by
  obtain ⟨mediaType, source⟩ := a
  rw [encodeImage]
  constructor
  · intro h
    split at h
    case isTrue himage =>
      cases source with
      | inline bytes => exact ⟨mediaType, bytes, himage, rfl, (Except.ok.inj h).symm⟩
      | address uri => cases h
    case isFalse => cases h
  · rintro ⟨_, bytes, himage, ⟨⟩, rfl⟩
    exact if_pos himage

theorem exists_of_encodeImage_eq_error {a : Attachment} {e : Error} (h : encodeImage a = .error e) :
    ∃ what, e = .unsupported .ollama what := by
  obtain ⟨mediaType, source⟩ := a
  rw [encodeImage] at h
  split at h
  · cases source with
    | inline bytes => cases h
    | address uri => exact ⟨_, (Except.error.inj h).symm⟩
  · exact ⟨_, (Except.error.inj h).symm⟩

/-- A text is taken by an empty draft only, an image by any draft. -/
theorem Draft.add_eq_ok_iff {d d' : Draft} {b : Block} :
    d.add b = .ok d' ↔
      (∃ s, b = .text s ∧ d.text = none ∧ d.images = [] ∧ d' = ⟨some s, []⟩) ∨
      ∃ mediaType bytes, MediaClass.ofType mediaType = .image ∧
        b = .attachment ⟨mediaType, .inline bytes⟩ ∧
        d' = ⟨d.text, d.images ++ [.string (Base64.encodeText bytes)]⟩ := by
  constructor
  · intro h
    cases b with
    | text s =>
      rw [add] at h
      split at h
      case isTrue => cases h
      case isFalse htext =>
        split at h
        case isTrue => cases h
        case isFalse himages =>
          obtain rfl := Except.ok.inj h
          have htext : d.text = none := by simpa using htext
          have himages : d.images = [] := by simpa using himages
          exact .inl ⟨s, rfl, htext, himages, by rw [himages]⟩
    | attachment a =>
      rw [add] at h
      obtain ⟨encoded, hencode, hpure⟩ := bind_eq_ok_iff.1 h
      obtain ⟨mediaType, bytes, himage, rfl, rfl⟩ := encodeImage_eq_ok_iff.1 hencode
      exact .inr ⟨mediaType, bytes, himage, rfl, (Except.ok.inj hpure).symm⟩
    | _ => cases h
  · rintro (⟨s, rfl, htext, himages, rfl⟩ | ⟨mediaType, bytes, himage, rfl, rfl⟩)
    · simp [add, htext, himages]
    · have hencode : encodeImage ⟨mediaType, .inline bytes⟩ = .ok (Base64.encodeText bytes) :=
        encodeImage_eq_ok_iff.2 ⟨mediaType, bytes, himage, rfl, rfl⟩
      rw [add, hencode]
      rfl

theorem Draft.exists_of_add_eq_error {d : Draft} {b : Block} {e : Error}
    (h : d.add b = .error e) : ∃ what, e = .unsupported .ollama what := by
  cases b with
  | text s =>
    rw [add] at h
    split at h
    · exact ⟨_, (Except.error.inj h).symm⟩
    · split at h
      · exact ⟨_, (Except.error.inj h).symm⟩
      · cases h
  | attachment a =>
    rw [add] at h
    rcases bind_eq_error_iff.1 h with hencode | ⟨encoded, -, hpure⟩
    · exact exists_of_encodeImage_eq_error hencode
    · cases hpure
  | _ => exact ⟨_, (Except.error.inj h).symm⟩

/-- Images as they are written. -/
def encodedImages (images : List (String × Bytes)) : List Json :=
  images.map fun i => .string (Base64.encodeText i.2)

theorem Draft.foldlM_imageBlocks {images : List (String × Bytes)}
    (h : ∀ i ∈ images, MediaClass.ofType i.1 = .image) (d : Draft) :
    (imageBlocks images).foldlM Draft.add d
      = .ok ⟨d.text, d.images ++ encodedImages images⟩ := by
  induction images generalizing d with
  | nil => simp [imageBlocks, encodedImages, pure, Except.pure]
  | cons i rest ih =>
    obtain ⟨himage, hrest⟩ := List.forall_mem_cons.1 h
    refine foldlM_cons_eq_ok_iff.2 ⟨_, add_eq_ok_iff.2 (.inr ⟨i.1, i.2, himage, rfl, rfl⟩), ?_⟩
    refine (ih hrest _).trans ?_
    simp [encodedImages]

/-- A draft that is not empty takes images only. -/
theorem Draft.isInlineImage_of_foldlM {content : List Block} {d d' : Draft}
    (hbegun : d.text ≠ none ∨ d.images ≠ []) (h : content.foldlM Draft.add d = .ok d') :
    ∀ b ∈ content, IsInlineImage b := by
  induction content generalizing d with
  | nil => simp
  | cons b rest ih =>
    obtain ⟨next, hadd, hrest⟩ := foldlM_cons_eq_ok_iff.1 h
    rcases add_eq_ok_iff.1 hadd with
      ⟨s, -, htext, himages, -⟩ | ⟨mediaType, bytes, himage, rfl, rfl⟩
    · exact absurd hbegun (by simp [htext, himages])
    · exact List.forall_mem_cons.2 ⟨⟨mediaType, bytes, himage, rfl⟩, ih (.inr (by simp)) hrest⟩

/-- What a message of a text and images is written as. -/
def written (role : Role) (text : Option String) (images : List (String × Bytes)) : Json :=
  Json.ofMembers [some ("content", .string (text.getD "")),
    if images.isEmpty then none else some ("images", .array (encodedImages images)),
    some ("role", .string role.name)]

theorem encodeMessage_of_eq {m : Message} {text : Option String} {images : List (String × Bytes)}
    (himages : ∀ i ∈ images, MediaClass.ofType i.1 = .image)
    (h : m.content = text.toList.map .text ++ imageBlocks images) :
    encodeMessage m = .ok (written m.role text images) := by
  have hdraft : m.content.foldlM Draft.add {} = .ok ⟨text, encodedImages images⟩ := by
    rw [h]
    cases text with
    | none => exact Draft.foldlM_imageBlocks himages {}
    | some s =>
      exact foldlM_cons_eq_ok_iff.2
        ⟨⟨some s, []⟩, rfl, Draft.foldlM_imageBlocks himages ⟨some s, []⟩⟩
  rw [encodeMessage, hdraft]
  cases images <;> rfl

theorem isWritable_of_encodeMessage {m : Message} {w : Json} (h : encodeMessage m = .ok w) :
    IsWritable m.content := by
  rw [encodeMessage] at h
  obtain ⟨d, hdraft, -⟩ := bind_eq_ok_iff.1 h
  refine isWritable_iff_exists.2 ?_
  cases hcontent : m.content with
  | nil => exact ⟨none, [], by simp, rfl⟩
  | cons b rest =>
    rw [hcontent] at hdraft
    obtain ⟨next, hadd, hrest⟩ := foldlM_cons_eq_ok_iff.1 hdraft
    rcases Draft.add_eq_ok_iff.1 hadd with
      ⟨s, rfl, -, -, rfl⟩ | ⟨mediaType, bytes, himage, rfl, rfl⟩
    · obtain ⟨images, himages, rfl⟩ :=
        exists_imageBlocks (Draft.isInlineImage_of_foldlM (.inl (by simp)) hrest)
      exact ⟨some s, images, himages, rfl⟩
    · obtain ⟨images, himages, rfl⟩ :=
        exists_imageBlocks (Draft.isInlineImage_of_foldlM (.inr (by simp)) hrest)
      exact ⟨none, (mediaType, bytes) :: images, List.forall_mem_cons.2 ⟨himage, himages⟩, rfl⟩

theorem exists_of_encodeMessage_eq_error {m : Message} {e : Error}
    (h : encodeMessage m = .error e) : ∃ what, e = .unsupported .ollama what := by
  rw [encodeMessage] at h
  rcases bind_eq_error_iff.1 h with hdraft | ⟨d, -, hpure⟩
  · obtain ⟨d, b, -, hfail⟩ := exists_of_foldlM_eq_error hdraft
    exact Draft.exists_of_add_eq_error hfail
  · cases hpure

/-! ## Reading back -/

/-- A block as it comes back: no empty text, and images of the type that their signature tells. -/
def readBack? : Block → Option Block
  | .text s => if s = "" then none else some (.text s)
  | .attachment ⟨_, .inline bytes⟩ => some (.attachment ⟨imageTypeOf bytes, .inline bytes⟩)
  | b => some b

/-- A message as it comes back. -/
def readBack (m : Message) : Message := { role := m.role, content := m.content.filterMap readBack? }

/-- The types that can be told are all types of images. -/
theorem ofType_imageTypeOf (bytes : Bytes) :
    MediaClass.ofType (imageTypeOf bytes) = .image := by
  rw [← sniffImageType_eq]
  unfold sniffImageType
  split <;> decide

theorem decodeImage_encodeText (bytes : Bytes) :
    decodeImage (.string (Base64.encodeText bytes))
      = .ok (.attachment ⟨imageTypeOf bytes, .inline bytes⟩) := by
  rw [decodeImage, ← sniffImageType_eq]
  simp only [Json.text?, requireBase64_encodeText]
  rfl

theorem mapM_decodeImage (images : List (String × Bytes)) :
    (encodedImages images).mapM decodeImage
      = .ok (imageBlocks (images.map fun i => (imageTypeOf i.2, i.2))) := by
  have hread := mapM_map_eq_ok images fun i _ => decodeImage_encodeText i.2
  rw [encodedImages, hread, imageBlocks, List.map_map]
  rfl

theorem decodeRole_written (role : Role) (text : Option String) (images : List (String × Bytes)) :
    decodeRole (written role text images) = .ok role := by
  have hrole : (written role text images).get "role" = .string role.name := by
    cases images <;> rfl
  rw [decodeRole, requireText_eq_ok hrole]
  cases role <;> rfl

/-- Where there is no text, the empty text is written, and it is read as no text. -/
theorem textBlocks_getD (text : Option String) :
    (if (text.getD "").isEmpty then [] else [Block.text (text.getD "")])
      = (text.filter (· ≠ "")).toList.map .text := by
  cases text with
  | none => rfl
  | some s => by_cases hs : s = "" <;> simp [Option.filter, hs]

theorem written_filter (role : Role) (text : Option String) (images : List (String × Bytes)) :
    written role (text.filter (· ≠ "")) (images.map fun i => (imageTypeOf i.2, i.2))
      = written role text images := by
  have htext : (text.filter (· ≠ "")).getD "" = text.getD "" := by
    cases text with
    | none => rfl
    | some s => by_cases hs : s = "" <;> simp [Option.filter, hs]
  have himages : encodedImages (images.map fun i => (imageTypeOf i.2, i.2))
      = encodedImages images := by
    rw [encodedImages, encodedImages, List.map_map]
    rfl
  rw [written, written, htext, himages, List.isEmpty_map]

/-- The blocks that come back of a text and images. -/
theorem filterMap_readBack? (text : Option String) (images : List (String × Bytes)) :
    (text.toList.map Block.text ++ imageBlocks images).filterMap readBack?
      = (text.filter (· ≠ "")).toList.map .text
        ++ imageBlocks (images.map fun i => (imageTypeOf i.2, i.2)) := by
  have himages : (imageBlocks images).filterMap readBack?
      = imageBlocks (images.map fun i => (imageTypeOf i.2, i.2)) := by
    rw [imageBlocks, imageBlocks, List.filterMap_map, List.map_map]
    exact congrFun List.filterMap_eq_map images
  rw [List.filterMap_append, himages]
  cases text with
  | none => rfl
  | some s => by_cases hs : s = "" <;> simp [readBack?, Option.filter, hs]

theorem decodeMessage_written {m : Message} {text : Option String} {images : List (String × Bytes)}
    (h : m.content = text.toList.map .text ++ imageBlocks images) :
    decodeMessage (written m.role text images) = .ok (readBack m) := by
  have hcontent : (written m.role text images).textOrEmpty "content" = text.getD "" := by
    cases images <;> rfl
  have himages : ((written m.role text images).get "images").elements?.getD []
      = encodedImages images := by
    cases images <;> rfl
  have hthinking : (written m.role text images).textOrEmpty "thinking" = "" := by
    cases images <;> rfl
  rw [decodeMessage, decodeRole_written, hcontent, himages, mapM_decodeImage, hthinking, readBack,
    h, filterMap_readBack?, ← textBlocks_getD]
  rfl

/-- A message can be written exactly if it is a text and after it images that travel inside of it,
and fails otherwise because the format has no place for it. It comes back with its role and its
blocks in order, without an empty text and with types of images that their signatures tell, and is
written once more as it was written before. -/
theorem roundTrip_sniffed (m : Message) :
    ((∃ w, encodeMessage m = .ok w) ↔ IsWritable m.content) ∧
    (∀ e, encodeMessage m = .error e → ∃ what, e = .unsupported .ollama what) ∧
    ∀ w, encodeMessage m = .ok w →
      decodeMessage w = .ok (readBack m) ∧ encodeMessage (readBack m) = .ok w := by
  refine ⟨⟨?_, ?_⟩, fun e he => exists_of_encodeMessage_eq_error he, ?_⟩
  · rintro ⟨w, hw⟩
    exact isWritable_of_encodeMessage hw
  · intro hm
    obtain ⟨text, images, himages, h⟩ := isWritable_iff_exists.1 hm
    exact ⟨_, encodeMessage_of_eq himages h⟩
  · intro w hw
    obtain ⟨text, images, himages, h⟩ := isWritable_iff_exists.1 (isWritable_of_encodeMessage hw)
    obtain rfl := Except.ok.inj ((encodeMessage_of_eq himages h).symm.trans hw)
    refine ⟨decodeMessage_written h, ?_⟩
    have hback : (readBack m).content = (text.filter (· ≠ "")).toList.map .text
        ++ imageBlocks (images.map fun i => (imageTypeOf i.2, i.2)) := by
      rw [readBack, h, filterMap_readBack?]
    have hsniffed : ∀ i ∈ images.map fun i => (imageTypeOf i.2, i.2),
        MediaClass.ofType i.1 = .image := by
      intro i hi
      obtain ⟨j, -, rfl⟩ := List.mem_map.1 hi
      exact ofType_imageTypeOf j.2
    rw [encodeMessage_of_eq hsniffed hback]
    exact congrArg Except.ok (written_filter m.role text images)

/-- An empty text and images of several formats, none of the type that it is said to be, the last
without a signature. -/
def imageMessage : Message where
  role := .user
  content := [.text "", .attachment ⟨"image/jpeg", .inline [0x89, 0x50, 0x4E, 0x47, 0x0D]⟩,
    .attachment ⟨"image/png", .inline [0xFF, 0xD8, 0xFF, 0xE0]⟩,
    .attachment ⟨"IMAGE/PNG", .inline (Bytes.ofString "GIF89a")⟩,
    .attachment ⟨"image/gif", .inline (Bytes.ofString "RIFF....WEBPVP8 ")⟩,
    .attachment ⟨"image/bmp", .inline (Bytes.ofString "BM")⟩]

/-- Moving pictures. -/
def clipMessage : Message where
  role := .user
  content := [.text "Look.", .attachment ⟨"video/mp4", .inline []⟩]

theorem roundTrip_sniffed_imageMessage :
    (∃ w, encodeMessage imageMessage = .ok w ∧ decodeMessage w = .ok {
      role := .user
      content := [.attachment ⟨"image/png", .inline [0x89, 0x50, 0x4E, 0x47, 0x0D]⟩,
        .attachment ⟨"image/jpeg", .inline [0xFF, 0xD8, 0xFF, 0xE0]⟩,
        .attachment ⟨"image/gif", .inline (Bytes.ofString "GIF89a")⟩,
        .attachment ⟨"image/webp", .inline (Bytes.ofString "RIFF....WEBPVP8 ")⟩,
        .attachment ⟨"image/jpeg", .inline (Bytes.ofString "BM")⟩] }) ∧
      ¬ ∃ w, encodeMessage clipMessage = .ok w := by
  constructor
  · obtain ⟨w, hw⟩ : ∃ w, encodeMessage imageMessage = .ok w := ⟨_, rfl⟩
    have hreadBack : readBack imageMessage = {
        role := .user
        content := [.attachment ⟨"image/png", .inline [0x89, 0x50, 0x4E, 0x47, 0x0D]⟩,
          .attachment ⟨"image/jpeg", .inline [0xFF, 0xD8, 0xFF, 0xE0]⟩,
          .attachment ⟨"image/gif", .inline (Bytes.ofString "GIF89a")⟩,
          .attachment ⟨"image/webp", .inline (Bytes.ofString "RIFF....WEBPVP8 ")⟩,
          .attachment ⟨"image/jpeg", .inline (Bytes.ofString "BM")⟩] } := by
      decide +kernel
    obtain ⟨hback, -⟩ := (roundTrip_sniffed imageMessage).2.2 w hw
    rw [hreadBack] at hback
    exact ⟨w, hw, hback⟩
  · rw [(roundTrip_sniffed clipMessage).1]
    intro hwritable
    rcases hwritable.kinds (.attachment ⟨"video/mp4", .inline []⟩) (by simp [clipMessage]) with
      ⟨s, hs⟩ | ⟨mediaType, bytes, himage, hattachment⟩
    · cases hs
    · obtain ⟨rfl, -⟩ : "video/mp4" = mediaType ∧ MediaSource.inline [] = .inline bytes := by
        simpa using hattachment
      exact absurd himage (by decide +kernel)

end ChatWire.Ollama
