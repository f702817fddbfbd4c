/-
Boards: which pins a microcontroller has and what each can do.  The
checks on hardware statements consult the profile of the board that a
program is written for.
-/
import SketchCompiler.Text.Blank
import SketchCompiler.Text.Case

namespace SketchCompiler

/-- The pins of a board, by capability. -/
structure Board where
  name : String
  validPins : List Int
  inputOnlyPins : List Int
  strappingPins : List Int
  flashPins : List Int
  reservedPins : List Int
  adc1Pins : List Int
  adc2Pins : List Int
  deriving Repr

/-- The integers from `first` to `last`. -/
def pinRange (first last : Nat) : List Int :=
  (List.range (last + 1 - first)).map fun i => Int.ofNat (first + i)

/-- The pins that can read an analog voltage. -/
def Board.adcPins (b : Board) : List Int :=
  (b.adc1Pins ++ b.adc2Pins).mergeSort (· ≤ ·)

/-- The pins that can drive a pulse width signal: valid, able to output,
and not taken by the flash memory or reserved. -/
def Board.pwmPins (b : Board) : List Int :=
  b.validPins.filter fun p =>
    !b.inputOnlyPins.contains p && !b.flashPins.contains p && !b.reservedPins.contains p

/-- The plain ESP32 module. -/
def esp32Board : Board where
  name := "esp32"
  validPins := pinRange 0 19 ++ pinRange 21 23 ++ pinRange 25 27 ++ pinRange 32 36 ++ [39]
  inputOnlyPins := [34, 35, 36, 39]
  strappingPins := [0, 2, 4, 5, 12, 15]
  flashPins := pinRange 6 11
  reservedPins := []
  adc1Pins := [32, 33, 34, 35, 36, 39]
  adc2Pins := [0, 2, 4, 12, 13, 14, 15, 25, 26, 27]

/-- The ESP32-S3 module with sixteen megabytes of flash and eight of
memory, which take five pins. -/
def esp32S3Board : Board where
  name := "esp32s3_n16r8"
  validPins := pinRange 0 48
  inputOnlyPins := []
  strappingPins := [0, 3, 45, 46]
  flashPins := []
  reservedPins := pinRange 33 37
  adc1Pins := pinRange 1 10
  adc2Pins := pinRange 11 20

/-- The boards with a profile. -/
def boards : List Board :=
  [esp32Board, esp32S3Board]

/-- The board of a name, blanks around it and letter case aside; a name
without a profile means the plain module. -/
def Board.ofName (name : String) : Board :=
  let name := Text.lower (Text.trim name)
  (boards.find? (·.name == name)).getD esp32Board

end SketchCompiler
