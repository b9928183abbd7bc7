import TextPool.Bytes.Basic

/-!
# Faults in a stored table

Everything that can be wrong with a stored table of strings, or with the file around it, and the
wording of each fault.
-/

namespace TextPool

/-- A fault found while reading a stored table. -/
inductive FormatError where
  | tooShort (position needed available : Nat)
  | foreignMagic (found : Bytes)
  | unknownVersion (version : UInt32)
  | wrongChecksum (expected actual : UInt32)
  | offsetOutside (index offset blobLength : Nat)
  | unterminated (index offset : Nat)
  deriving DecidableEq

namespace FormatError

/-- Bytes as decimal numbers in a bracketed list. -/
def listed (bytes : Bytes) : String :=
  "[" ++ ", ".intercalate (bytes.map fun byte => toString byte.toNat) ++ "]"

/-- A checksum as eight small hexadecimal digits behind their mark. -/
def checksumText (checksum : UInt32) : String :=
  let digits := Nat.toDigits 16 checksum.toNat
  "0x" ++ String.ofList (List.replicate (8 - digits.length) '0' ++ digits)

/-- The wording of a fault. -/
def message : FormatError → String
  | tooShort position needed available =>
    s!"image truncated: need {needed} bytes at offset {position}, have {available}"
  | foreignMagic found => "bad magic " ++ listed found
  | unknownVersion version => s!"unsupported image version {version.toNat}"
  | wrongChecksum expected actual =>
    "checksum mismatch: header says " ++ checksumText expected ++ ", content is "
      ++ checksumText actual
  | offsetOutside index offset blobLength =>
    s!"string {index} starts at {offset}, past the blob end ({blobLength})"
  | unterminated index offset => s!"string {index} at offset {offset} is not NUL-terminated"

end FormatError

end TextPool
