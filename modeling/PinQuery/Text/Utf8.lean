/-!
# Bytes as text

`decodeLossy` shows bytes as text. Every stretch that begins a character but does not complete it,
and every byte that begins none, shows as one replacement character.
-/

namespace PinQuery.Text

/-- The character shown for bytes that are no text. -/
def replacement : Char := '\ufffd'

/-- How a character that begins with a given byte goes on: the range of the second byte, and the
number of further bytes in all. `none` if no character of several bytes begins so. -/
def continuation? (first : Nat) : Option (Nat × Nat × Nat) :=
  if 0xC2 ≤ first ∧ first ≤ 0xDF then some (0x80, 0xBF, 1)
  else if first = 0xE0 then some (0xA0, 0xBF, 2)
  else if first = 0xED then some (0x80, 0x9F, 2)
  else if 0xE1 ≤ first ∧ first ≤ 0xEF then some (0x80, 0xBF, 2)
  else if first = 0xF0 then some (0x90, 0xBF, 3)
  else if 0xF1 ≤ first ∧ first ≤ 0xF3 then some (0x80, 0xBF, 3)
  else if first = 0xF4 then some (0x80, 0x8F, 3)
  else none

/-- The leading bytes that go on with a character: at most `count`, the first of them between
`least` and `greatest` and the others any continuation bytes. -/
def goesOn (least greatest : Nat) : Nat → List UInt8 → List UInt8
  | 0, _ => []
  | _, [] => []
  | count + 1, b :: bs =>
    if least ≤ b.toNat ∧ b.toNat ≤ greatest then b :: goesOn 0x80 0xBF count bs else []

/-- The number of bits that the first byte of a character of `further + 1` bytes adds. -/
def leadBits (first further : Nat) : Nat := first % Nat.pow 2 (6 - further)

/-- The character at the head of bytes and the number of bytes after its first. -/
def decodeChar (first : UInt8) (rest : List UInt8) : Char × Nat :=
  if first.toNat < 0x80 then (.ofNat first.toNat, 0)
  else
    match continuation? first.toNat with
    | none => (replacement, 0)
    | some (least, greatest, further) =>
      let taken := goesOn least greatest further rest
      if taken.length = further then
        (.ofNat (taken.foldl (fun value b => value * 64 + b.toNat % 64)
          (leadBits first.toNat further)), further)
      else
        (replacement, taken.length)

/-- The characters that bytes show as. -/
def decodeChars : List UInt8 → List Char
  | [] => []
  | first :: rest =>
    let (c, more) := decodeChar first rest
    c :: decodeChars (rest.drop more)
termination_by bytes => bytes.length
decreasing_by simp only [List.length_drop, List.length_cons]; omega

/-- The text that bytes show as. -/
def decodeLossy (bytes : List UInt8) : String := String.ofList (decodeChars bytes)

end PinQuery.Text
