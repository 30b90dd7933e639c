/-
  VectorRaster.Raster.Png — the parts of a PNG file that do not depend on its pixels.

  A chunk is its length, its type, its data and a checksum of type and data; numbers are
  32-bit words with the high byte first. The header chunk holds the size and says that
  pixels are four bytes; the end chunk is empty. A side's length is taken as a word, and
  must not be zero.
-/

import VectorRaster.Raster.Frame

namespace VectorRaster.Png

inductive EncodeError where
  | zeroWidth
  | zeroHeight
  deriving DecidableEq, Repr

def EncodeError.message : EncodeError → String
  | zeroWidth => "Zero width not allowed"
  | zeroHeight => "Zero height not allowed"

/-- One bit of the division that the checksum is the remainder of. -/
def crcShift (r : UInt32) : UInt32 := if r &&& 1 == 1 then (r >>> 1) ^^^ 0xEDB88320 else r >>> 1

def crcByte (r : UInt32) (b : UInt8) : UInt32 := (List.range 8).foldl (fun r _ => crcShift r) (r ^^^ b.toUInt32)

/-- The cyclic redundancy check of some bytes. -/
def crc (bytes : List UInt8) : UInt32 := bytes.foldl crcByte 0xFFFFFFFF ^^^ 0xFFFFFFFF

def wordBytes (w : UInt32) : List UInt8 :=
  [(w >>> 24).toUInt8, (w >>> 16).toUInt8, (w >>> 8).toUInt8, w.toUInt8]

def chunk (type data : List UInt8) : List UInt8 :=
  wordBytes (UInt32.ofNat data.length) ++ type ++ data ++ wordBytes (crc (type ++ data))

def signature : List UInt8 := [0x89, 0x50, 0x4E, 0x47, 0x0D, 0x0A, 0x1A, 0x0A]

/-- Eight bits a channel, colour with alpha, the one compression and filter method, not interlaced. -/
def pixelFormat : List UInt8 := [8, 6, 0, 0, 0]

def headerType : List UInt8 := [0x49, 0x48, 0x44, 0x52]

def endType : List UInt8 := [0x49, 0x45, 0x4E, 0x44]

/-- What stands before the image data: signature and header chunk. -/
def header (size : FrameSize) : Except EncodeError (List UInt8) :=
  let width := UInt32.ofNat size.width
  let height := UInt32.ofNat size.height
  if width = 0 then .error .zeroWidth
  else if height = 0 then .error .zeroHeight
  else .ok (signature ++ chunk headerType (wordBytes width ++ wordBytes height ++ pixelFormat))

/-- What stands after the image data. -/
def ending : List UInt8 := chunk endType []

end VectorRaster.Png
