/-
Reading UTF-8.  Bytes that encode no text are refused with the place of
the first bad sequence, its length, and what is wrong with it.
-/
import SketchCompiler.Text.Quoted

namespace SketchCompiler.Text

/-- What is wrong with a sequence of bytes. -/
inductive Utf8Issue where
  | startByte
  | continuationByte
  | endOfData
  deriving DecidableEq, Repr

/-- A sequence of bytes that encodes no character: where it starts, its
first byte, and how many bytes belong to it. -/
structure Utf8Fault where
  issue : Utf8Issue
  position : Nat
  first : UInt8
  width : Nat
  deriving DecidableEq, Repr

/-- The wording of a fault. -/
def Utf8Fault.message (f : Utf8Fault) : String :=
  let place :=
    if f.width ≤ 1 then
      "byte 0x" ++ String.ofList (hexPadded 2 f.first.toNat)
        ++ " in position " ++ toString f.position
    else
      "bytes in position " ++ toString f.position ++ "-" ++ toString (f.position + f.width - 1)
  let reason := match f.issue with
    | .startByte => "invalid start byte"
    | .continuationByte => "invalid continuation byte"
    | .endOfData => "unexpected end of data"
  "'utf-8' codec can't decode " ++ place ++ ": " ++ reason

/-- The range of the second byte behind a first byte, which keeps out
long forms, surrogates and what lies beyond the last character. -/
def secondRange (first : UInt8) : UInt8 × UInt8 :=
  if first = 0xE0 then (0xA0, 0xBF)
  else if first = 0xED then (0x80, 0x9F)
  else if first = 0xF0 then (0x90, 0xBF)
  else if first = 0xF4 then (0x80, 0x8F)
  else (0x80, 0xBF)

/-- How many bytes a first byte asks for; `none` if it starts nothing. -/
def sequenceWidth (first : UInt8) : Option Nat :=
  if first < 0x80 then some 1
  else if first < 0xC2 then none
  else if first < 0xE0 then some 2
  else if first < 0xF0 then some 3
  else if first < 0xF5 then some 4
  else none

/-- The bits of a first byte that belong to the character. -/
def leadBits (width : Nat) (first : UInt8) : Nat :=
  match width with
  | 1 => first.toNat
  | 2 => first.toNat % 32
  | 3 => first.toNat % 16
  | _ => first.toNat % 8

/-- Adds the continuation bytes to the bits read so far.  `read` counts
the bytes of the sequence already taken. -/
def continuation (range : UInt8 × UInt8) (bits read : Nat) :
    Nat → List UInt8 → Except (Utf8Issue × Nat) Nat
  | 0, _ => .ok bits
  | _ + 1, [] => .error (.endOfData, read)
  | n + 1, b :: rest =>
    if range.1 ≤ b ∧ b ≤ range.2 then
      continuation (0x80, 0xBF) (bits * 64 + b.toNat % 64) (read + 1) n rest
    else .error (.continuationByte, read)

/-- The character at the start of the bytes, and its width. -/
def firstChar (b : UInt8) (rest : List UInt8) : Except (Utf8Issue × Nat) (Char × Nat) := do
  match sequenceWidth b with
  | none => throw (.startByte, 1)
  | some width =>
    let bits ← continuation (secondRange b) (leadBits width b) 1 (width - 1) rest
    return (Char.ofNat bits, width)

/-- Reads characters; `skip` counts the bytes of the last one that are
still to pass, and `read` holds the characters, last first. -/
def decodeFrom (read : List Char) (position : Nat) : Nat → List UInt8 → Except Utf8Fault (List Char)
  | _, [] => .ok read.reverse
  | skip + 1, _ :: rest => decodeFrom read (position + 1) skip rest
  | 0, b :: rest =>
    match firstChar b rest with
    | .error (issue, width) => .error ⟨issue, position, b, width⟩
    | .ok (c, width) => decodeFrom (c :: read) (position + 1) (width - 1) rest

/-- The text that bytes encode. -/
def decodeUtf8 (bytes : List UInt8) : Except Utf8Fault String := do
  return String.ofList (← decodeFrom [] 0 0 bytes)

end SketchCompiler.Text
