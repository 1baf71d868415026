import Linkage.Code.Memory
import Linkage.Code.Patch

/-!
# Laying out a method

A method takes its data words first and one code word for each instruction behind them; its entry
lies in between. Instructions that are not bound yet get a trap word and a patch site.
-/

namespace Linkage

/-- A patch site whose method has no address yet. -/
structure PendingPatch where
  /-- Which instruction traps. -/
  codeIndex : Nat
  /-- Which data word the patcher fills in. -/
  dataIndex : Nat
  patcher : Patcher
  operand : PatchOperand

/-- The code of a method on its way into the code area. -/
structure Builder where
  /-- The data words. -/
  data : List Word := []
  /-- The instructions with their data words. -/
  code : List (Opcode × Option Nat) := []
  /-- The instructions to be bound later. -/
  patches : List PendingPatch := []

/-- The data word of an access to a static field. -/
def staticFieldWord (f : FieldHandle) : Except Fault Word :=
  if f.field.offset < f.owner.data.staticSlots then .ok (.staticAddress f.owner f.field.offset)
  else .error (.staticStorageMissing f.text)

/-- The data word of an access to an instance field. -/
def instanceFieldWord (f : FieldHandle) : Word := .bits (wordOfInt f.field.offset)

/-- The position in a table that a call is dispatched through. -/
def dispatchIndex? (op : Opcode) (m : Method) : Option Nat :=
  match op with
  | .invokeinterface => m.itableIndex.or m.vtableIndex
  | .invokevirtual => m.vtableIndex
  | _ => none

/-- The data word of a call: the offset in the table it is dispatched through, or the method. -/
def callWord (op : Opcode) (m : MethodHandle) : Word :=
  match dispatchIndex? op m.method with
  | some i => .bits (wordOfInt (i * wordSize))
  | none => .methodAddress m

namespace Builder

/-- Adds a data word for the instruction that comes next. -/
def addData (b : Builder) (w : Word) : Builder × Nat :=
  ({ b with data := b.data ++ [w] }, b.data.length)

/-- Asks for an instruction to be bound later. -/
def addPatch (b : Builder) (p : PendingPatch) : Builder :=
  { b with patches := b.patches ++ [p] }

/-- Adds an instruction with its data word. -/
def addCode (b : Builder) (op : Opcode) (slot : Option Nat) : Builder :=
  { b with code := b.code ++ [(op, slot)] }

/-- Adds an instruction that is bound later, with an empty data word. -/
def addPatched (b : Builder) (op : Opcode) (patcher : Patcher) (operand : PatchOperand) :
    Builder :=
  let (b, slot) := b.addData (.bits 0)
  (b.addPatch ⟨b.code.length, slot, patcher, operand⟩).addCode op (some slot)

/-- Adds an instruction whose data word is known. It still has to be bound later if a class has to
be initialized first. -/
def addResolved (b : Builder) (op : Opcode) (c : Class) (phase : Phase) (w : Word) : Builder :=
  if op.initializesClass && phase ≠ .initialized then
    b.addPatched op .initializer (.whenInitialized c w)
  else
    let (b, slot) := b.addData w
    b.addCode op (some slot)

/-- Adds an instruction whose reference is not resolved. -/
def addUnresolved (b : Builder) (op : Opcode) (operand : PatchOperand) : Except Fault Builder :=
  match Patcher.ofOpcode? op with
  | some patcher => .ok (b.addPatched op patcher operand)
  | none => .error (.noPatcher op.name)

/-- Adds an instruction. -/
def emit (b : Builder) (i : Instruction) : AreaM Builder := do
  let op := i.opcode
  match i.operand with
  | .none =>
    if op.hasImmediate then
      let (b, slot) := b.addData (.bits (wordOfInt i.immediate))
      return b.addCode op (some slot)
    else return b.addCode op none
  | .toClass (.resolved c) =>
    let target ← if op = .anewarray then Area.arrayOf c else pure c
    return b.addResolved op c ((← get).phase c) (.classAddress target)
  | .toField (.resolved f) =>
    let w ← if f.field.isStatic then ofExcept (staticFieldWord f) else pure (instanceFieldWord f)
    return b.addResolved op f.owner ((← get).phase f.owner) w
  | .toMethod (.resolved m) =>
    return b.addResolved op m.owner ((← get).phase m.owner) (callWord op m)
  | .toClass (.unresolved u) => ofExcept (b.addUnresolved op (.use (.ofClass u)))
  | .toField (.unresolved u) => ofExcept (b.addUnresolved op (.use (.ofField u)))
  | .toMethod (.unresolved u) => ofExcept (b.addUnresolved op (.use (.ofMethod u)))

/-- Adds instructions one after the other. -/
def emitAll (b : Builder) : List Instruction → AreaM Builder
  | [] => return b
  | i :: is => do (← b.emit i).emitAll is

/-! ### Addresses -/

/-- The distance of a data word from the entry, as the 32 bits of a code word hold it. -/
def displacement (b : Builder) (dataIndex : Nat) : Int :=
  Int.bmod (((dataIndex : Int) - b.data.length) * wordSize) halfValues

/-- The code words of the instructions once they are bound. -/
def codeWords (b : Builder) : List UInt64 :=
  b.code.map fun (op, slot) => encode op (slot.elim 0 b.displacement)

/-- The code words with traps where something has to be bound first. -/
def trappedWords (b : Builder) : List UInt64 :=
  b.codeWords.zipIdx.map fun (w, i) =>
    if b.patches.any fun p => p.codeIndex = i then trapWord else w

/-- All words of the method. -/
def words (b : Builder) : List Word := b.data ++ b.trappedWords.map Word.bits

/-- The number of words to reserve; even a method without words has an address of its own. -/
def reservation (b : Builder) : Nat := max (b.data.length + b.code.length) 1

/-- The patch site of an instruction, for a method with a given entry. -/
def site (b : Builder) (entry : Address) (p : PendingPatch) : Except Fault PatchSite :=
  match b.codeWords[p.codeIndex]? with
  | some saved =>
    .ok ⟨entry + p.codeIndex * wordSize, entry, b.displacement p.dataIndex, p.patcher, p.operand,
      saved, .unpatched⟩
  | none => .error (.patchOutside p.codeIndex)

/-- Puts a patch site behind those at the same or a lower address. -/
def insertSite (s : PatchSite) : List PatchSite → List PatchSite
  | [] => [s]
  | t :: ts => if s.position < t.position then s :: t :: ts else t :: insertSite s ts

/-- The patch sites by their addresses; of two at one address, the one asked for first comes
first. -/
def sortSites (sites : List PatchSite) : List PatchSite :=
  sites.foldl (fun sorted s => insertSite s sorted) []

/-- The method that the code becomes at an address. -/
def compiled (b : Builder) (number : Nat) (method : MethodHandle) (start : Address) :
    Except Fault CompiledMethod := do
  let entry := start + b.data.length * wordSize
  let sites ← b.patches.mapM (b.site entry)
  let size := b.data.length + b.code.length
  return ⟨number, method, start, entry, start + size * wordSize, sortSites sites⟩

end Builder

end Linkage
