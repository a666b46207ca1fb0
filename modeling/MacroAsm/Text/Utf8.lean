import MacroAsm.Text.Quoted

/-!
# MacroAsm.Text.Utf8

Text from bytes.  Bytes that are not UTF-8 are refused, and the fault says which
bytes are the first bad ones: the longest run that could begin a character and
does not go on as one.
-/

namespace MacroAsm.Text.Utf8

/-- Why bytes do not make a character. -/
inductive Reason where
  | badStart
  | badContinuation
  | cutShort
deriving DecidableEq, Repr

/-- The words for a reason. -/
def Reason.text : Reason → String
  | badStart => "invalid start byte"
  | badContinuation => "invalid continuation byte"
  | cutShort => "unexpected end of data"

/-- The first bad bytes: how many, where, and the first of them. -/
structure Fault where
  reason : Reason
  position : Nat
  count : Nat
  first : UInt8
deriving DecidableEq, Repr

/-- The words for a fault. -/
def Fault.message (f : Fault) : String :=
  let which :=
    if f.count ≤ 1 then
      "byte 0x" ++ String.ofList (hexDigits 2 f.first.toNat) ++ " in position " ++
        toString f.position
    else
      "bytes in position " ++ toString f.position ++ "-" ++ toString (f.position + f.count - 1)
  "'utf-8' codec can't decode " ++ which ++ ": " ++ f.reason.text

/-- How a character goes on: how many more bytes it takes, and the range that
the next of them is in. -/
structure Expected where
  more : Nat
  low : UInt8
  high : UInt8

/-- How a character goes on after its first byte; nothing if no character starts
with that byte.  The second byte is in a narrower range where longer forms,
surrogates or code points past the last would begin. -/
def afterFirst (b : UInt8) : Option Expected :=
  if b < 0x80 then some ⟨0, 0, 0⟩
  else if b < 0xc2 then none
  else if b < 0xe0 then some ⟨1, 0x80, 0xbf⟩
  else if b = 0xe0 then some ⟨2, 0xa0, 0xbf⟩
  else if b = 0xed then some ⟨2, 0x80, 0x9f⟩
  else if b < 0xf0 then some ⟨2, 0x80, 0xbf⟩
  else if b = 0xf0 then some ⟨3, 0x90, 0xbf⟩
  else if b < 0xf4 then some ⟨3, 0x80, 0xbf⟩
  else if b = 0xf4 then some ⟨3, 0x80, 0x8f⟩
  else none

/-- A character that has begun: its first byte, how many bytes were read, and
how it goes on. -/
structure Begun where
  first : UInt8
  count : Nat
  expected : Expected

/-- The first fault of bytes that do not end well, from a position on.  Bytes
without a fault are taken to be cut short at their end. -/
def firstFault (position : Nat) : Option Begun → List UInt8 → Fault
  | none, [] => ⟨.cutShort, position, 0, 0⟩
  | some p, [] => ⟨.cutShort, position - p.count, p.count, p.first⟩
  | none, b :: bs =>
    match afterFirst b with
    | none => ⟨.badStart, position, 1, b⟩
    | some ⟨0, _, _⟩ => firstFault (position + 1) none bs
    | some expected => firstFault (position + 1) (some ⟨b, 1, expected⟩) bs
  | some p, b :: bs =>
    if p.expected.low ≤ b && b ≤ p.expected.high then
      match p.expected.more with
      | 0 | 1 => firstFault (position + 1) none bs
      | more + 1 =>
        firstFault (position + 1) (some ⟨p.first, p.count + 1, ⟨more, 0x80, 0xbf⟩⟩) bs
    else ⟨.badContinuation, position - p.count, p.count, p.first⟩

/-- The text that bytes encode. -/
def decode (bytes : ByteArray) : Except Fault String :=
  match String.fromUTF8? bytes with
  | some text => .ok text
  | none => .error (firstFault 0 none bytes.toList)

/-- The bytes of a text. -/
def encode (text : String) : ByteArray := text.toUTF8

end MacroAsm.Text.Utf8
