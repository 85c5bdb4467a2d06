import ChatWire.Dialect.Ollama

/-!
# Classes and formats of media

The class of an attachment is what its media type names before the first slash
(`MediaClass.ofType_eq_iff`). The format of an image is told by what its bytes begin with
(`sniffImageType_eq`).
-/

namespace ChatWire

/-! ## Classes -/

namespace MediaClass

/-- A media type names the class, in letters of any case, alone or before a slash. -/
def IsNamedBy (c : MediaClass) (mediaType : String) : Prop :=
  ∃ word rest, mediaType.toList = word ++ rest ∧ word.map Char.toLower = c.name.toList ∧
    (rest = [] ∨ ∃ more, rest = '/' :: more)

/-- What stands before the first slash of a media type, in small letters. -/
def nameIn (mediaType : String) : List Char :=
  (mediaType.toList.takeWhile (· != '/')).map Char.toLower

variable {c : MediaClass} {mediaType : String}

theorem slash_notMem_name (c : MediaClass) : '/' ∉ c.name.toList := by
  cases c <;> decide

theorem isNamedBy_iff : c.IsNamedBy mediaType ↔ nameIn mediaType = c.name.toList := by
  constructor
  · rintro ⟨word, rest, hsplit, hname, hrest⟩
    have hword : ∀ x ∈ word, (x != '/') = true := by
      intro x hx
      rw [bne_iff_ne]
      rintro rfl
      refine c.slash_notMem_name ?_
      rw [← hname]
      exact List.mem_map.2 ⟨'/', hx, by decide⟩
    have hstop : rest.takeWhile (· != '/') = [] := by
      rcases hrest with rfl | ⟨more, rfl⟩ <;> simp
    rw [nameIn, hsplit, List.takeWhile_append_of_pos hword, hstop, List.append_nil, hname]
  · intro hname
    refine ⟨_, _, (List.takeWhile_append_dropWhile (p := (· != '/'))).symm, hname, ?_⟩
    cases hrest : mediaType.toList.dropWhile (· != '/') with
    | nil => exact .inl rfl
    | cons x more =>
      have hslash := List.head?_dropWhile_not (· != '/') mediaType.toList
      rw [hrest] at hslash
      have hx : x = '/' := by simpa using hslash
      exact .inr ⟨more, by rw [hx]⟩

/-- A type that names pictures, moving pictures or sound is of that class. -/
theorem ofType_eq_iff (hc : c ≠ .document) : ofType mediaType = c ↔ c.IsNamedBy mediaType := by
  have hname : c.IsNamedBy mediaType ↔ String.ofList (nameIn mediaType) = c.name := by
    rw [isNamedBy_iff]
    constructor
    · intro h
      rw [h, String.ofList_toList]
    · intro h
      rw [← h, String.toList_ofList]
  rw [hname, ofType, ← nameIn]
  split
  case h_1 h => rw [h]; cases c <;> simp [name]
  case h_2 h => rw [h]; cases c <;> simp [name]
  case h_3 h => rw [h]; cases c <;> simp [name]
  case h_4 himage hvideo haudio => cases c <;> simp_all [name]

/-- All others are documents. -/
theorem ofType_eq_document_iff :
    ofType mediaType = .document ↔
      ∀ c : MediaClass, c ≠ .document → ¬ c.IsNamedBy mediaType := by
  constructor
  · intro h c hc hnamed
    exact hc ((ofType_eq_iff hc).2 hnamed ▸ h)
  · intro h
    exact Decidable.byContradiction fun hc => h _ hc ((ofType_eq_iff hc).1 rfl)

end MediaClass

/-! ## Formats of images -/

/-- How an image of a format is known: bytes that stand at fixed places. -/
structure Signature where
  /-- The media type of the format. -/
  mediaType : String
  /-- The bytes and where they stand. -/
  marks : List (Nat × Bytes)

namespace Signature

/-- The signature of the PNG format. -/
def png : Signature := ⟨"image/png", [(0, 0x89 :: Bytes.ofString "PNG")]⟩

/-- The signature of the JPEG format. -/
def jpeg : Signature := ⟨"image/jpeg", [(0, [0xFF, 0xD8, 0xFF])]⟩

/-- The signature of the GIF format. -/
def gif : Signature := ⟨"image/gif", [(0, Bytes.ofString "GIF8")]⟩

/-- The signature of the WebP format. The size of the file stands between the marks. -/
def webp : Signature :=
  ⟨"image/webp", [(0, Bytes.ofString "RIFF"), (8, Bytes.ofString "WEBP")]⟩

/-- The formats that are told apart. -/
def all : List Signature := [png, jpeg, gif, webp]

/-- The bytes bear the signature. -/
def IsBorneBy (s : Signature) (bytes : Bytes) : Prop :=
  ∀ mark ∈ s.marks, mark.2 <+: bytes.drop mark.1

instance (bytes : Bytes) : DecidablePred fun s : Signature => s.IsBorneBy bytes :=
  fun _ => inferInstanceAs (Decidable (∀ mark ∈ _, _))

end Signature

/-- The media type of an image by its signature; where it bears none, it is taken for JPEG. -/
def imageTypeOf (bytes : Bytes) : String :=
  ((Signature.all.find? fun s => s.IsBorneBy bytes).map Signature.mediaType).getD "image/jpeg"

example : imageTypeOf [0x89, 0x50, 0x4E, 0x47, 0x0D] = "image/png" := by decide +kernel

theorem sniffImageType_eq (bytes : Bytes) : Ollama.sniffImageType bytes = imageTypeOf bytes := by
  unfold Ollama.sniffImageType
  split
  case h_5 hpng hjpeg hgif hwebp =>
    have hnone : ∀ s ∈ Signature.all, ¬ s.IsBorneBy bytes := by
      simp only [Signature.all, List.forall_mem_cons, List.not_mem_nil, false_implies, implies_true,
        and_true]
      refine ⟨fun h => ?_, fun h => ?_, fun h => ?_, fun h => ?_⟩
      · obtain ⟨rest, hrest⟩ := h _ (List.mem_singleton_self _)
        exact hpng rest hrest.symm
      · obtain ⟨rest, hrest⟩ := h _ (List.mem_singleton_self _)
        exact hjpeg rest hrest.symm
      · obtain ⟨rest, hrest⟩ := h _ (List.mem_singleton_self _)
        exact hgif rest hrest.symm
      · obtain ⟨rest, hrest⟩ := h (0, Bytes.ofString "RIFF") (by simp [Signature.webp])
        obtain ⟨more, hmore⟩ := h (8, Bytes.ofString "WEBP") (by simp [Signature.webp])
        obtain rfl : [0x52, 0x49, 0x46, 0x46] ++ rest = bytes := hrest
        match rest, hmore with
        | a :: b :: c :: d :: behind, hmore =>
          obtain rfl : [0x57, 0x45, 0x42, 0x50] ++ more = behind := hmore
          exact hwebp a b c d more rfl
    have hfind : Signature.all.find? (fun s => decide (s.IsBorneBy bytes)) = none := by
      simpa [List.find?_eq_none] using hnone
    rw [imageTypeOf, hfind]
    rfl
  all_goals rfl

end ChatWire
