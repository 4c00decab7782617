/-!
# Cyclic redundancy check

The 32-bit check of a sequence of bytes with the reflected polynomial `0xEDB88320`, starting from
all ones and inverted at the end.
-/

namespace LiveMarkup.Text

/-- One bit shifted out of the register. -/
def crcBit (r : UInt32) : UInt32 :=
  if r &&& 1 = 1 then (r >>> 1) ^^^ 0xEDB88320 else r >>> 1

/-- One byte taken into the register. -/
def crcByte (r : UInt32) (b : UInt8) : UInt32 :=
  Nat.repeat crcBit 8 (r ^^^ b.toUInt32)

/-- The check of a sequence of bytes. -/
def crc32 (bytes : List UInt8) : UInt32 :=
  bytes.foldl crcByte 0xFFFFFFFF ^^^ 0xFFFFFFFF

end LiveMarkup.Text
