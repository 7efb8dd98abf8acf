import BlockAgreement.Crypto.Keccak

/-! The mixed-case text of an address: a letter is upper case where the hash of the lower-case
digits has a digit of at least eight. -/

namespace BlockAgreement.Address

def checksummed (a : Address) : String :=
  let digits := Bytes.hexDigits a.toList
  let hash := Bytes.hexDigits (Keccak.hash (digits.map fun c => UInt8.ofNat c.toNat)).toList
  "0x" ++ String.ofList ((digits.zip hash).map fun (c, h) =>
    if (Bytes.hexValue? h).getD 0 < 8 then c else c.toUpper)

end BlockAgreement.Address
