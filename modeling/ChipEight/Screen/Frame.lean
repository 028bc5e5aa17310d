import ChipEight.Layout

/-!
The cells of the screen and how a sprite is drawn on them. A sprite is a column of bytes, eight
cells a byte, the high bit leftmost. It is drawn by exclusive or; columns past the right edge wrap
to the left one and rows past the bottom are dropped. A cell may hold any byte, and only 1 is lit.
-/

namespace ChipEight

abbrev Row := Vector UInt8 screenWidth

abbrev Frame := Vector Row screenHeight

namespace Row

def blank : Row := .replicate screenWidth 0

/-- Bit `j` of a byte, counted from the high end. -/
def bit (byte : UInt8) (j : Nat) : UInt8 :=
  if byte.toNat.testBit (7 - j) then 1 else 0

/-- Adds `value` to a cell; true if both were lit. The columns of a row are a ring. -/
def plot (row : Row) (column : Nat) (value : UInt8) : Row × Bool :=
  have inside : column % screenWidth < screenWidth := Nat.mod_lt _ (by decide)
  let old := row[column % screenWidth]
  (row.set (column % screenWidth) (old ^^^ value), value &&& old == 1)

/-- Draws one byte of a sprite, of which `rest` bits remain. -/
def drawBits (row : Row) (x : Nat) (byte : UInt8) : Nat → Row × Bool
  | 0 => (row, false)
  | rest + 1 =>
      let (drawn, hit) := row.plot (x + (7 - rest)) (bit byte (7 - rest))
      let (final, hits) := drawBits drawn x byte rest
      (final, hit || hits)

def drawByte (row : Row) (x : Nat) (byte : UInt8) : Row × Bool :=
  row.drawBits x byte 8

def text (row : Row) : List Char :=
  row.toList.map fun cell => if cell = 1 then '#' else '.'

end Row

namespace Frame

def blank : Frame := .replicate screenHeight .blank

/-- Draws a sprite with its top left corner at column `x` and row `y`; true if a lit cell of the
frame met a lit bit of the sprite. -/
def draw (frame : Frame) (x y : Nat) : List UInt8 → Frame × Bool
  | [] => (frame, false)
  | byte :: rest =>
      if _ : y < screenHeight then
        let (row, hit) := frame[y].drawByte x byte
        let (final, hits) := draw (frame.set y row) x (y + 1) rest
        (final, hit || hits)
      else
        (frame, false)

def setCell (frame : Frame) (y : Fin screenHeight) (x : Fin screenWidth) (cell : UInt8) : Frame :=
  frame.set y (frame[y].set x cell)

/-- One line for each row, `#` for a lit cell. -/
def lines (frame : Frame) : List (List Char) :=
  frame.toList.map Row.text

theorem length_lines (frame : Frame) : frame.lines.length = screenHeight := by
  simp [lines]

theorem length_of_mem_lines {frame : Frame} {line : List Char} (h : line ∈ frame.lines) :
    line.length = screenWidth := by
  obtain ⟨row, _, rfl⟩ := List.mem_map.mp h
  simp [Row.text]

/-- The lines with line feeds between them and none at the end. -/
def text (frame : Frame) : String :=
  .ofList (['\n'].intercalate frame.lines)

end Frame
end ChipEight
