import Linkage.Code.Instruction
import Linkage.Code.Word

/-!
# Patch sites

An instruction that cannot be bound when the code is made traps when it first runs. The patch site
remembers how to bind it: which patcher computes the data word, from what, and the code word to put
back.
-/

namespace Linkage

/-- The ways to compute the data word of a site. -/
inductive Patcher where
  | staticField
  | instanceField
  | directCall
  | virtualCall
  | interfaceCall
  | newObject
  | newArray
  | classConstant
  /-- The target is known; only its class has to be initialized. -/
  | initializer
  deriving DecidableEq, Repr

/-- How messages name a patcher. -/
def Patcher.name : Patcher → String
  | staticField => "get/putstatic patcher"
  | instanceField => "get/putfield patcher"
  | directCall => "invokestatic/invokespecial patcher"
  | virtualCall => "invokevirtual patcher"
  | interfaceCall => "invokeinterface patcher"
  | newObject => "new patcher"
  | newArray => "anewarray patcher"
  | classConstant => "class patcher"
  | initializer => "class initialization patcher"

/-- The patcher for an instruction whose reference is not resolved. -/
def Patcher.ofOpcode? : Opcode → Option Patcher
  | .getstatic | .putstatic => some staticField
  | .getfield | .putfield => some instanceField
  | .invokestatic | .invokespecial => some directCall
  | .invokevirtual => some virtualCall
  | .invokeinterface => some interfaceCall
  | .new => some newObject
  | .anewarray => some newArray
  | .ldc | .checkcast | .instanceof | .multianewarray => some classConstant
  | _ => none

/-- What a patcher works on. -/
inductive PatchOperand where
  /-- Something that is still to be resolved. -/
  | use (u : Use)
  /-- A data word that may be used once a class is initialized. -/
  | whenInitialized (c : Class) (value : Word)

/-- The operand of a patch site as it is listed. -/
def PatchOperand.text : PatchOperand → String
  | use u => u.text
  | whenInitialized c _ => s!"initialize {c.name}"

/-- How far a patch site is bound. -/
inductive PatchState where
  | unpatched
  | patching
  | patched
  deriving DecidableEq, Repr

/-- The name of a patch state. -/
def PatchState.name : PatchState → String
  | unpatched => "Unpatched"
  | patching => "Patching"
  | patched => "Patched"

/-- An instruction that traps until it is bound. -/
structure PatchSite where
  /-- The address of the code word. -/
  position : Address
  /-- The entry of the method. -/
  entry : Address
  /-- The distance of the data slot from the entry. -/
  displacement : Int
  /-- How to compute the data word. -/
  patcher : Patcher
  /-- What to compute the data word from. -/
  operand : PatchOperand
  /-- The code word of the bound instruction. -/
  saved : UInt64
  /-- How far the site is bound. -/
  state : PatchState := .unpatched

/-- The address of the data slot of a site. -/
def PatchSite.dataAddress (s : PatchSite) : Address := wrapAddress (s.entry + s.displacement)

/-- A method in the code area. -/
structure CompiledMethod where
  /-- Compiled methods are numbered in the order in which they are installed. -/
  number : Nat
  /-- The method. -/
  method : MethodHandle
  /-- The address of the first data word. -/
  start : Address
  /-- The address of the first code word. -/
  entry : Address
  /-- The address behind the last code word. -/
  stop : Address
  /-- The sites that are or were to be bound, by their addresses. -/
  sites : List PatchSite

namespace CompiledMethod

/-- Whether an address lies in the method. -/
def contains (m : CompiledMethod) (address : Address) : Bool :=
  m.start ≤ address && address < m.stop

/-- The address of the code word of an instruction. -/
def codePosition (m : CompiledMethod) (index : Nat) : Address :=
  wrapAddress (m.entry + index * wordSize)

/-- The position in the list of the last site at an address. -/
def siteIndex? (m : CompiledMethod) (address : Address) : Option Nat :=
  (m.sites.zipIdx.filter fun e => e.1.position = address).getLast?.map Prod.snd

/-- The last site at an address. -/
def site? (m : CompiledMethod) (address : Address) : Option PatchSite :=
  (m.siteIndex? address).bind fun i => m.sites[i]?

end CompiledMethod

end Linkage
