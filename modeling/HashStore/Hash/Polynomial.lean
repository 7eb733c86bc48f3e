/-! # The polynomial hash of a byte string

The bytes are read as the digits of a number in base 31, most significant first, modulo `2 ^ 64`.
`extend` goes on from a hash already computed, so that a text can be hashed while it is being
written (`extend_append`). -/

namespace HashStore.Polynomial

/-- The base in which the bytes are digits. -/
def factor : UInt64 := 31

/-- Appends `bytes` as further digits to the number `h`. -/
def extend (h : UInt64) (bytes : List UInt8) : UInt64 :=
  bytes.foldl (fun h b => h * factor + b.toUInt64) h

def hash (bytes : List UInt8) : UInt64 := extend 0 bytes

@[simp] theorem extend_nil (h : UInt64) : extend h [] = h := rfl

@[simp] theorem extend_cons (h : UInt64) (b : UInt8) (bytes : List UInt8) :
    extend h (b :: bytes) = extend (h * factor + b.toUInt64) bytes := rfl

theorem extend_append (h : UInt64) (a b : List UInt8) :
    extend h (a ++ b) = extend (extend h a) b := by
  simp [extend]

end HashStore.Polynomial
