/-!
# The screen

The machine draws nothing itself. It asks a screen to clear itself or to draw a
sprite, and is told whether a pixel that was set went out. What is modelled is what
passes between the two: the requests that were made, and the answers still to come. A
screen that has run out of answers reports no collision.
-/

namespace Chip8

namespace Screen

/-- What the machine asks of a screen. -/
inductive Request
  /-- Clear all pixels. -/
  | clear
  /-- Draw a sprite of eight pixels a row, one byte for each row, at the given place. -/
  | draw (sprite : List UInt8) (x y : UInt8)

end Screen

/-- A screen, seen from the machine. -/
structure Screen where
  /-- The collisions that it will report, one for each sprite, in order. -/
  answers : List Bool
  /-- What it was asked to do, the first request first. -/
  requests : Array Screen.Request

namespace Screen

/-- A screen that was not asked for anything yet. -/
def ofAnswers (answers : List Bool) : Screen := ⟨answers, #[]⟩

/-- Asks for a clear screen. -/
def clear (s : Screen) : Screen := { s with requests := s.requests.push .clear }

/-- Whether the next sprite will collide. -/
def collides (s : Screen) : Bool := s.answers.headD false

/-- Asks for a sprite. -/
def draw (s : Screen) (sprite : List UInt8) (x y : UInt8) : Screen :=
  ⟨s.answers.tail, s.requests.push (.draw sprite x y)⟩

end Screen

end Chip8
