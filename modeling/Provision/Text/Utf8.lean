/-!
# UTF-8 bytes as characters

Source text is scanned byte by byte, and a byte is seen as the character of the same number.
`encode` gives the bytes of a text in this form, and `decode` puts the bytes of an encoded text
together again.
-/

namespace Provision.Text

/-- The bytes of a character, each as the character of the same number. -/
def encodeChar (c : Char) : List Char :=
  (String.utf8EncodeChar c).map fun b => Char.ofNat b.toNat

def encode (cs : List Char) : List Char := cs.flatMap encodeChar

/-- Reads bytes on when `pending` bytes of a character are still to come and those before them
carry the bits `bits`. A first byte tells how many follow, and each of these adds six bits. -/
def decodeFrom : (pending : Nat) → (bits : Nat) → List Char → List Char
  | _, _, [] => []
  | 0, _, b :: rest =>
    let n := b.toNat
    if n < 0x80 then b :: decodeFrom 0 0 rest
    else if n < 0xE0 then decodeFrom 1 (n % 0x20) rest
    else if n < 0xF0 then decodeFrom 2 (n % 0x10) rest
    else decodeFrom 3 (n % 0x08) rest
  | 1, bits, b :: rest => Char.ofNat (bits * 64 + b.toNat % 64) :: decodeFrom 0 0 rest
  | pending + 2, bits, b :: rest => decodeFrom (pending + 1) (bits * 64 + b.toNat % 64) rest

def decode (bytes : List Char) : List Char := decodeFrom 0 0 bytes

end Provision.Text
