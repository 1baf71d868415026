/-!
# Opcodes

The instructions that compiled code knows, with their numbers, their names and the kind of
reference each of them carries.
-/

namespace Linkage

/-- What an instruction does. -/
inductive Opcode where
  | nop | aconstNull | iconstM1 | iconst0 | iconst1 | bipush | sipush | ldc
  | iload0 | aload0 | aload1 | istore1 | astore1 | pop | dup | iadd | imul
  | ireturn | areturn | voidReturn
  | getstatic | putstatic | getfield | putfield
  | invokevirtual | invokespecial | invokestatic | invokeinterface
  | new | newarray | anewarray | arraylength | athrow | checkcast | instanceof | multianewarray
  /-- Reserved for sites that are not bound yet. -/
  | trap
  deriving DecidableEq, Repr

/-- The kind of reference that an opcode carries. -/
inductive OperandKind where
  | none
  | classRef
  | fieldRef
  | methodRef
  deriving DecidableEq, Repr

/-- The name of an operand kind. -/
def OperandKind.name : OperandKind → String
  | none => "None"
  | classRef => "Class"
  | fieldRef => "Field"
  | methodRef => "Method"

namespace Opcode

/-- The opcodes by their numbers. -/
def all : List Opcode :=
  [nop, aconstNull, iconstM1, iconst0, iconst1, bipush, sipush, ldc, iload0, aload0, aload1,
    istore1, astore1, pop, dup, iadd, imul, ireturn, areturn, voidReturn, getstatic, putstatic,
    getfield, putfield, invokevirtual, invokespecial, invokestatic, invokeinterface, new, newarray,
    anewarray, arraylength, athrow, checkcast, instanceof, multianewarray, trap]

/-- The number of an opcode. -/
def number : Opcode → Nat
  | nop => 0
  | aconstNull => 1
  | iconstM1 => 2
  | iconst0 => 3
  | iconst1 => 4
  | bipush => 16
  | sipush => 17
  | ldc => 18
  | iload0 => 26
  | aload0 => 42
  | aload1 => 43
  | istore1 => 60
  | astore1 => 76
  | pop => 87
  | dup => 89
  | iadd => 96
  | imul => 104
  | ireturn => 172
  | areturn => 176
  | voidReturn => 177
  | getstatic => 178
  | putstatic => 179
  | getfield => 180
  | putfield => 181
  | invokevirtual => 182
  | invokespecial => 183
  | invokestatic => 184
  | invokeinterface => 185
  | new => 187
  | newarray => 188
  | anewarray => 189
  | arraylength => 190
  | athrow => 191
  | checkcast => 192
  | instanceof => 193
  | multianewarray => 197
  | trap => 255

/-- The name of an opcode. -/
def name : Opcode → String
  | nop => "nop"
  | aconstNull => "aconst_null"
  | iconstM1 => "iconst_m1"
  | iconst0 => "iconst_0"
  | iconst1 => "iconst_1"
  | bipush => "bipush"
  | sipush => "sipush"
  | ldc => "ldc"
  | iload0 => "iload_0"
  | aload0 => "aload_0"
  | aload1 => "aload_1"
  | istore1 => "istore_1"
  | astore1 => "astore_1"
  | pop => "pop"
  | dup => "dup"
  | iadd => "iadd"
  | imul => "imul"
  | ireturn => "ireturn"
  | areturn => "areturn"
  | voidReturn => "return"
  | getstatic => "getstatic"
  | putstatic => "putstatic"
  | getfield => "getfield"
  | putfield => "putfield"
  | invokevirtual => "invokevirtual"
  | invokespecial => "invokespecial"
  | invokestatic => "invokestatic"
  | invokeinterface => "invokeinterface"
  | new => "new"
  | newarray => "newarray"
  | anewarray => "anewarray"
  | arraylength => "arraylength"
  | athrow => "athrow"
  | checkcast => "checkcast"
  | instanceof => "instanceof"
  | multianewarray => "multianewarray"
  | trap => "impdep2"

/-- The opcode with a number. -/
def ofNumber? (n : Nat) : Option Opcode := all.find? fun op => op.number = n

/-- The opcode with a name. -/
def ofName? (s : String) : Option Opcode := all.find? fun op => op.name = s

/-- The kind of reference that the opcode carries. -/
def operandKind : Opcode → OperandKind
  | getstatic | putstatic | getfield | putfield => .fieldRef
  | invokevirtual | invokespecial | invokestatic | invokeinterface => .methodRef
  | ldc | new | anewarray | checkcast | instanceof | multianewarray => .classRef
  | _ => .none

/-- Whether the opcode carries a reference. -/
def needsResolution (op : Opcode) : Bool := op.operandKind ≠ .none

/-- Whether the opcode works on a static member. -/
def isStaticAccess : Opcode → Bool
  | getstatic | putstatic | invokestatic => true
  | _ => false

/-- Whether the opcode stores into a field. -/
def isPut : Opcode → Bool
  | putstatic | putfield => true
  | _ => false

/-- Whether the class in question has to be initialized before the instruction runs. -/
def initializesClass : Opcode → Bool
  | getstatic | putstatic | invokestatic | new => true
  | _ => false

/-- Whether the instruction carries a number of its own in its data slot. -/
def hasImmediate : Opcode → Bool
  | bipush | sipush | newarray => true
  | _ => false

@[simp]
theorem ofNumber?_number (op : Opcode) : ofNumber? op.number = some op := by
  cases op <;> decide

theorem number_lt (op : Opcode) : op.number < 256 := by
  cases op <;> decide

end Opcode

end Linkage
