import Outbox.Bytes

/-! # Cyclic redundancy check

The 32-bit checksum of the gzip format, for the reflected polynomial `0xEDB88320`.
-/

namespace Outbox.Gzip

/-- The register after one bit of input has gone through it. -/
def crcBit (r : UInt32) : UInt32 :=
  if r &&& 1 = 1 then (r >>> 1) ^^^ 0xEDB88320 else r >>> 1

def crcByte (r : UInt32) (b : UInt8) : UInt32 :=
  crcBit (crcBit (crcBit (crcBit (crcBit (crcBit (crcBit (crcBit (r ^^^ b.toUInt32))))))))

def crc32 (b : Bytes) : UInt32 := b.foldl crcByte 0xFFFFFFFF ^^^ 0xFFFFFFFF

end Outbox.Gzip
