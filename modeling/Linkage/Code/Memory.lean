import Linkage.Code.Word
import Linkage.Fault
import Linkage.Table

/-!
# The code area

A fixed number of words, handed out from the front and never taken back. A word that was not
written holds zero.
-/

namespace Linkage

/-- The code area. -/
structure CodeMemory where
  /-- The number of words. -/
  capacity : Nat
  /-- How many words are handed out. -/
  used : Nat := 0
  /-- The words that were written, by their position. -/
  words : Table Nat Word := {}

namespace CodeMemory

/-- One more than the largest number of words a code area can have. -/
def sizeLimit : Nat := 0x1000000000000000

/-- A code area for a number of words, at least one. -/
def create (words : Nat) : Except Fault CodeMemory :=
  if sizeLimit ≤ words then .error (.codeAreaTooLarge words) else .ok { capacity := max words 1 }

/-- Hands out a number of words and gives the address of the first. -/
def allocate (m : CodeMemory) (words : Nat) : Except Fault (Address × CodeMemory) :=
  if m.capacity - m.used < words then .error (.codeAreaExhausted m.used m.capacity)
  else .ok (m.used * wordSize, { m with used := m.used + words })

/-- The position of the word at an address. -/
def index? (m : CodeMemory) (address : Address) : Option Nat :=
  match address with
  | .ofNat n => if n % wordSize = 0 && n / wordSize < m.capacity then some (n / wordSize) else none
  | .negSucc _ => none

/-- The word at an address. -/
def read? (m : CodeMemory) (address : Address) : Option Word :=
  (m.index? address).map fun i => (m.words.get? i).getD (.bits 0)

/-- Writes the word at an address. -/
def write (m : CodeMemory) (address : Address) (w : Word) : Except Fault CodeMemory :=
  match m.index? address with
  | some i => .ok { m with words := m.words.insert i w }
  | none => .error (.notACodeWord address)

/-- Writes words one after the other, starting at an address. -/
def writeAll (m : CodeMemory) (address : Address) : List Word → Except Fault CodeMemory
  | [] => .ok m
  | w :: ws => do
    let m ← m.write address w
    m.writeAll (address + wordSize) ws

end CodeMemory

end Linkage
