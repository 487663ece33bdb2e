namespace LiterateSync.Text

/-- Eight steps of dividing by the CRC-32 polynomial, lowest bit first. -/
def crcByte (steps : Nat) (remainder : UInt32) : UInt32 :=
  match steps with
  | 0 => remainder
  | n + 1 =>
    crcByte n
      (if remainder &&& 1 = 1 then (remainder >>> 1) ^^^ 0xEDB88320 else remainder >>> 1)

/-- The CRC-32 checksum of some bytes: the reflected polynomial `0xEDB88320`, with
    all bits set at the start and flipped at the end. -/
def crc32 (bytes : List UInt8) : UInt32 :=
  bytes.foldl (fun r b => crcByte 8 (r ^^^ b.toUInt32)) 0xFFFFFFFF ^^^ 0xFFFFFFFF

/-- A number in lower-case hexadecimal, without leading zeros. -/
def hexText (n : Nat) : String :=
  String.ofList (Nat.toDigits 16 n)

end LiterateSync.Text
