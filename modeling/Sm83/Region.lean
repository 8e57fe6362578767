/-!
# Memory regions

The parts of the address space a section can live in, their windows, and the banks of those that are
switched in and out.
-/

namespace Sm83

/-- A part of the address space. -/
inductive Region where
  | rom0 | romx | vram | sram | wram0 | wramx | oam | hram
  deriving DecidableEq, Repr

namespace Region

def all : List Region := [rom0, romx, vram, sram, wram0, wramx, oam, hram]

def word : Region → String
  | rom0 => "rom0" | romx => "romx" | vram => "vram" | sram => "sram"
  | wram0 => "wram0" | wramx => "wramx" | oam => "oam" | hram => "hram"

/-- The region a lower-case word spells. -/
def ofWord? (w : String) : Option Region :=
  all.find? fun r => r.word == w

/-- The first and last address of a region. -/
def window : Region → Int × Int
  | rom0 => (0x0000, 0x3FFF)
  | romx => (0x4000, 0x7FFF)
  | vram => (0x8000, 0x9FFF)
  | sram => (0xA000, 0xBFFF)
  | wram0 => (0xC000, 0xCFFF)
  | wramx => (0xD000, 0xDFFF)
  | oam => (0xFE00, 0xFE9F)
  | hram => (0xFF80, 0xFFFE)

def banks? : Region → Option (Int × Int)
  | romx => some (1, 511)
  | vram => some (0, 1)
  | sram => some (0, 15)
  | wramx => some (1, 7)
  | _ => none

end Region

end Sm83
