import Linkage.Class.Basic
import Linkage.Code.Opcode

/-!
# Words of the code area

A code word holds an opcode in its highest byte and, in its low half, how far the data slot of the
instruction lies from the entry of the method. A data word is a number or the address of a class,
of a static slot or of a method.
-/

namespace Linkage

/-- The bytes a word takes. -/
def wordSize : Nat := 8

/-- The number of values that a word can have. -/
def wordValues : Nat := 0x10000000000000000

/-- The number of values that the low half of a word can have. -/
def halfValues : Nat := 0x100000000

/-- The value of the lowest bit of the highest byte of a word. -/
def opcodeUnit : Nat := 0x100000000000000

/-- An address as the distance in bytes from the start of the code area. -/
abbrev Address := Int

/-- The address that a machine with 64-bit addresses arrives at. -/
def wrapAddress (n : Int) : Address := Int.bmod n wordValues

/-- A number as the 64 bits that stand for it; negative numbers count from above. -/
def wordOfInt (n : Int) : UInt64 := UInt64.ofNat (n % wordValues).toNat

/-- The contents of a word. -/
inductive Word where
  /-- A number or a code word. -/
  | bits (value : UInt64)
  /-- The address of a class. -/
  | classAddress (c : Class)
  /-- The address of a slot in the static storage of a class. -/
  | staticAddress (c : Class) (slot : Nat)
  /-- The address of a method. -/
  | methodAddress (m : MethodHandle)

/-- The code word of an instruction whose data slot lies at a distance from the entry; the distance
is 0 for an instruction without one. -/
def encode (op : Opcode) (displacement : Int) : UInt64 :=
  UInt64.ofNat (op.number * opcodeUnit + (displacement % halfValues).toNat)

/-- The opcode and the distance that a code word holds. -/
def decode? (w : UInt64) : Option (Opcode × Int) :=
  (Opcode.ofNumber? (w.toNat / opcodeUnit)).map fun op =>
    (op, Int.bmod (w.toNat % halfValues) halfValues)

/-- The code word of a site that is not bound yet. -/
def trapWord : UInt64 := encode .trap 0

/-- Whether a code word makes the processor trap. -/
def isTrap (w : UInt64) : Bool := w.toNat / opcodeUnit = Opcode.trap.number

/-- Whether a word makes the processor trap; addresses have no opcode in their highest byte. -/
def Word.isTrap : Word → Bool
  | bits w => Linkage.isTrap w
  | _ => false

@[simp]
theorem isTrap_trapWord : isTrap trapWord = true := by decide

end Linkage
