import Linkage.Code.Opcode
import Linkage.Resolver.Resolve

/-!
# Instructions

An instruction whose reference can be resolved when the code is made holds the target; all others
hold the use, which is resolved when the instruction first runs.
-/

namespace Linkage

/-- A target, or the use that leads to it. -/
inductive Resolvable (ρ υ : Type) where
  | resolved (target : ρ)
  | unresolved (use : υ)

/-- Whether the target is known. -/
def Resolvable.isResolved {ρ υ : Type} : Resolvable ρ υ → Bool
  | resolved _ => true
  | unresolved _ => false

/-- What an instruction works on. -/
inductive Operand where
  | none
  | toClass (target : Resolvable Class ClassUse)
  | toField (target : Resolvable FieldHandle FieldUse)
  | toMethod (target : Resolvable MethodHandle MethodUse)

namespace Operand

/-- The kind of the operand. -/
def kind : Operand → OperandKind
  | none => .none
  | toClass _ => .classRef
  | toField _ => .fieldRef
  | toMethod _ => .methodRef

/-- Whether nothing is left to resolve. -/
def isResolved : Operand → Bool
  | none => true
  | toClass t => t.isResolved
  | toField t => t.isResolved
  | toMethod t => t.isResolved

end Operand

/-- An instruction. -/
structure Instruction where
  opcode : Opcode
  operand : Operand
  /-- A number that is part of the instruction, or the dimensions of a new array. -/
  immediate : Int

namespace Instruction

/-- An instruction without a reference. -/
def plain (op : Opcode) (immediate : Int) : Except Fault Instruction :=
  if op.needsResolution then .error (.referenceRequired op.name)
  else .ok ⟨op, .none, immediate⟩

/-- Refuses an opcode that carries another kind of reference. -/
def expectKind (op : Opcode) (kind : OperandKind) : ResolverM Unit :=
  if op.operandKind = kind then return () else throw (.wrongOperandKind op.name kind.name)

/-- The target of a resolution that succeeds. A resolution that fails is repeated when the
instruction runs, for that is where its fault belongs, and so is one that is deferred. -/
def settle {ρ υ : Type} (use : υ) (x : ResolutionM ρ) : ResolverM (Resolvable ρ υ) := do
  match ← tryCatch x.run fun _ => pure none with
  | some target => return .resolved target
  | none => return .unresolved use

/-- An instruction that refers to a class. -/
def ofClass (op : Opcode) (u : ClassUse) : ResolverM Instruction := do
  expectKind op .classRef
  let dimensions := if op = .multianewarray then (splitDimensions u.target.name).1 else 0
  let target ← settle u (Resolver.resolveClass u .lazy)
  return ⟨op, .toClass target, dimensions⟩

/-- An instruction that refers to a field. -/
def ofField (op : Opcode) (u : FieldUse) : ResolverM Instruction := do
  expectKind op .fieldRef
  if op.isStaticAccess ≠ u.isStatic || op.isPut ≠ u.isPut then
    throw (.wrongReference op.name u.text)
  let target ← settle u (Resolver.resolveField u .lazy)
  return ⟨op, .toField target, 0⟩

/-- Whether an opcode may call a method that is used in this way. -/
def calls (op : Opcode) (u : MethodUse) : Bool :=
  op.isStaticAccess = u.isStatic && (op == .invokespecial) = u.isSpecial &&
    match op with
    | .invokeinterface => u.target.isInterface
    | .invokevirtual => !u.target.isInterface
    | _ => true

/-- An instruction that refers to a method. A call through an interface goes to the interface
method, which holds the position the call is dispatched through. -/
def ofMethod (op : Opcode) (u : MethodUse) : ResolverM Instruction := do
  expectKind op .methodRef
  if !calls op u then throw (.wrongReference op.name u.text)
  let target ← settle u do
    let m ← Resolver.resolveMethod u .lazy
    if op = .invokeinterface then Resolver.interfaceTarget u.target else return m
  return ⟨op, .toMethod target, 0⟩

/-- An instruction that refers to what is used. -/
def ofUse (op : Opcode) : Use → ResolverM Instruction
  | .ofClass u => ofClass op u
  | .ofField u => ofField op u
  | .ofMethod u => ofMethod op u

end Instruction

end Linkage
