import Mathlib

/-!
# CRC-32

The cyclic redundancy check of IEEE 802.3 in its reflected form, computed bit by bit.
-/

namespace Crc32

/-- One bit of the division by the generator polynomial. -/
def shift (crc : UInt32) : UInt32 :=
  if crc &&& 1 = 1 then (crc >>> 1) ^^^ 0xEDB88320 else crc >>> 1

def update (crc : UInt32) (byte : UInt8) : UInt32 :=
  (List.range 8).foldl (fun c _ => shift c) (crc ^^^ byte.toUInt32)

def crc32 (bytes : List UInt8) : UInt32 := bytes.foldl update 0xFFFFFFFF ^^^ 0xFFFFFFFF

/-- The check value of the standard: the checksum of `123456789`. -/
example : crc32 [0x31, 0x32, 0x33, 0x34, 0x35, 0x36, 0x37, 0x38, 0x39] = 0xCBF43926 := by
  decide +kernel

end Crc32
