import EbpfLab.Library.Stream
import EbpfLab.Vm.Memory

/-!
# Loaded programs

A program section with its relocations, and the data sections of its object file. Hash maps are
functions from the key.
-/

namespace EbpfLab.Elf
open Interp

/-- A relocation entry. Its kind and addend are not read by the linker. -/
structure Relocation where
  offset : UInt64
  symbol : Option String
  rType : Option UInt32
  deriving DecidableEq, Repr

structure DataSection where
  name : String
  bytes : Bytes
  deriving DecidableEq, Repr

/-- A `HashMap` from names. -/
abbrev Table (α : Type) := String → Option α

/-- `insert`, over an earlier entry of the name. -/
def Table.insert {α : Type} (table : Table α) (name : String) (a : α) : Table α := fun other =>
  if other = name then some a else table other

/-- A program section: its bytes, fewer than `isize::MAX` of them as in every `Vec`, and what is to be
relocated in them. -/
structure ElfProgram where
  bytes : Bytes
  relocations : List Relocation
  bounded : bytes.length < 2 ^ 63

/-- The linker's errors. -/
inductive ElfError where
  | unsupportedReloc (offset : UInt64) (rType : Option UInt32) (symbol : Option String)
  | unresolvedMapSymbol (symbol : String) (offset : UInt64)
  | unresolvedDataSymbol (symbol : String) (offset : UInt64)
  | relocOutOfBounds (offset : UInt64) (len : Nat)
  deriving DecidableEq, Repr

end EbpfLab.Elf
