import Linkage.Machine.Initialize

/-!
# Traps and execution

A trap finds the patch site of its address and binds it: the patcher computes the data word, and
then the instruction is put back. A patcher that fails leaves the site as it was, so that the next
run of the instruction fails again. Initializers run by a patcher may trap on the same site; the
innermost of them binds it.

`init` initializes a class throughout.
-/

namespace Linkage

namespace Machine

/-- Resolves something that must not be deferred. -/
def eagerly {α : Type} (what : String) (x : ResolutionM α) : MachineM α := do
  match ← onResolver x.run with
  | some v => return v
  | none => throw (.deferredEagerly what)

/-- The data word of a site. -/
def patchWord (init : Class → MachineM Unit) : Patcher → PatchOperand → MachineM Word
  | .staticField, .use (.ofField u) => do
    let f ← eagerly u.text (Resolver.resolveField u .eager)
    init f.owner
    ofExcept (staticFieldWord f)
  | .instanceField, .use (.ofField u) => do
    let f ← eagerly u.text (Resolver.resolveField u .eager)
    return instanceFieldWord f
  | .directCall, .use (.ofMethod u) => do
    let m ← eagerly u.text (Resolver.resolveMethod u .eager)
    if u.isStatic then init m.owner
    return .methodAddress m
  | .virtualCall, .use (.ofMethod u) => do
    let m ← eagerly u.text (Resolver.resolveMethod u .eager)
    return callWord .invokevirtual m
  | .interfaceCall, .use (.ofMethod u) => do
    let _ ← eagerly u.text (Resolver.resolveMethod u .eager)
    let m ← eagerly u.target.container.name (Resolver.interfaceTarget u.target)
    return callWord .invokeinterface m
  | .newObject, .use (.ofClass u) => do
    let c ← eagerly u.text (Resolver.resolveClass u .eager)
    if c.isInterface || c.isAbstract then throw (.notInstantiable c.name)
    init c
    return .classAddress c
  | .newArray, .use (.ofClass u) => do
    let c ← eagerly u.text (Resolver.resolveClass u .eager)
    return .classAddress (← onArea (Area.arrayOf c))
  | .classConstant, .use (.ofClass u) => do
    let c ← eagerly u.text (Resolver.resolveClass u .eager)
    return .classAddress c
  | .initializer, .whenInitialized c w => do
    init c
    return w
  | patcher, _ => throw (.wrongPatcher patcher.name)

/-- Puts a bound instruction into the code area: the data word before the code word. -/
def bindSite (s : PatchSite) (w : Word) : MachineM Unit := do
  write s.dataAddress w
  write s.position (.bits s.saved)

/-- Binds a site of a compiled method. -/
def patchSite (init : Class → MachineM Unit) (number index : Nat) (s : PatchSite) :
    MachineM TrapOutcome := do
  let isPatched : MachineM Bool := return (← get).siteState? number index = some .patched
  if ← isPatched then return .alreadyPatched
  setSiteState number index .patching
  match ← attempt (patchWord init s.patcher s.operand) with
  | .error f =>
    if !(← isPatched) then setSiteState number index .unpatched
    throw f
  | .ok w =>
    if ← isPatched then return .alreadyPatched
    bindSite s w
    setSiteState number index .patched
    return .patched

/-- Deals with a trap at an address. -/
def trapWith (init : Class → MachineM Unit) (address : Address) : MachineM TrapOutcome := do
  match (← get).find? address with
  | none => return .noPatchSite
  | some c =>
    match c.siteIndex? address with
    | none => return .noPatchSite
    | some i =>
      match c.sites[i]? with
      | some s => patchSite init c.number i s
      | none => return .noPatchSite

/-- The opcode and the distance that a word holds. The bits of an address are not modelled: a data
word that holds one is no code, and where it is run all the same it counts as `nop`, whatever its
bits would spell. -/
def decodeWord (address : Address) : Word → MachineM (Opcode × Int)
  | .bits w =>
    match decode? w with
    | some r => return r
    | none => throw (.illegalCodeWord w.toNat address)
  | _ => return (.nop, 0)

/-- What a fetched instruction of a method with the given entry runs with. -/
def fetched (entry address : Address) (w : Word) : MachineM Execution := do
  let (op, displacement) ← decodeWord address w
  if displacement = 0 then return ⟨op, none⟩
  else return ⟨op, some (← read (wrapAddress (entry + displacement)))⟩

/-- Runs the instruction at an address, dealing with its trap first. Outside compiled code nothing
runs. -/
def executeWith (init : Class → MachineM Unit) (address : Address) :
    MachineM (Option Execution) := do
  match (← get).find? address with
  | none => return none
  | some c =>
    let w ← read address
    if w.isTrap then
      if (← trapWith init address) = .noPatchSite then return none
      else return some (← fetched c.entry address (← read address))
    else return some (← fetched c.entry address w)

end Machine

end Linkage
