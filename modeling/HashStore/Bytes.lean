/-! # Bytes of integers and texts

Texts and structured contents are hashed as bytes.  An integer gives its two's complement form, least
significant byte first (`littleEndian`), and a text gives its UTF-8 form (`utf8`). -/

namespace HashStore

/-- The `width` low bytes of the two's complement form of `value`, least significant first. -/
def littleEndian (width : Nat) (value : Int) : List UInt8 :=
  (List.range width).map fun i => UInt8.ofInt (value.shiftRight (8 * i))

@[simp] theorem length_littleEndian (width : Nat) (value : Int) :
    (littleEndian width value).length = width := by
  simp [littleEndian]

def utf8 (s : String) : List UInt8 := s.toUTF8.data.toList

@[simp] theorem utf8_empty : utf8 "" = [] := rfl

@[simp] theorem utf8_append (s t : String) : utf8 (s ++ t) = utf8 s ++ utf8 t := by
  simp [utf8]

end HashStore
