import Linkage.Area.Basic
import Linkage.Code.Patch

/-!
# What initializers do

An initializer is a program that asks the machine for one thing after another and may let each
answer decide how it goes on. A fault that it does not deal with ends it.
-/

namespace Linkage

/-- How a trap was dealt with. -/
inductive TrapOutcome where
  /-- This trap bound the site. -/
  | patched
  /-- The site was bound already. -/
  | alreadyPatched
  /-- There is no site at the address. -/
  | noPatchSite
  deriving DecidableEq, Repr

/-- The name of an outcome. -/
def TrapOutcome.name : TrapOutcome → String
  | patched => "Patched"
  | alreadyPatched => "AlreadyPatched"
  | noPatchSite => "NoPatchSite"

/-- What an instruction ran with. -/
structure Execution where
  opcode : Opcode
  /-- The data word of the instruction. -/
  value : Option Word

/-- An address, possibly given relative to the method that was compiled under a label. -/
inductive Place where
  /-- The code word of an instruction. -/
  | instruction (label : String) (index : Nat)
  /-- A number of bytes from the start of the method. -/
  | byte (label : String) (offset : Int)
  /-- A number of bytes from the start of the code area. -/
  | absolute (offset : Int)

namespace Place

/-- The label that has to be known. -/
def label? : Place → Option String
  | instruction label _ => some label
  | byte label _ => some label
  | absolute _ => none

/-- The address of a place, where `find` knows what was compiled under a label. -/
def address? (find : String → Option CompiledMethod) : Place → Option Address
  | instruction label i => (find label).map fun c => c.codePosition i
  | byte label n => (find label).map fun c => wrapAddress (c.start + n)
  | absolute n => some (wrapAddress n)

end Place

/-- What a program can ask the machine for. -/
inductive Request where
  /-- Load a class. -/
  | load (loader : LoaderId) (name : String)
  /-- Initialize a class. -/
  | start (c : Class)
  /-- How far a class is initialized. -/
  | phase (c : Class)
  /-- The method that was compiled under a label. -/
  | code (label : String)
  /-- Deal with a trap. -/
  | trap (address : Address)
  /-- Run an instruction. -/
  | execute (address : Address)
  /-- How far a site of a compiled method is bound. -/
  | siteState (method : Nat) (address : Address)
  /-- Make a class known to a loader. -/
  | define (loader : LoaderId) (definition : Definition)
  /-- Compile a method. -/
  | compile (label : String) (method : MethodHandle) (code : List Instruction)
  /-- Forget a compiled method. -/
  | unload (method : Nat)

/-- The answer to a request that succeeds. -/
def Reply : Request → Type
  | .load .. => Class
  | .start _ => Unit
  | .phase _ => Phase
  | .code _ => Option CompiledMethod
  | .trap _ => TrapOutcome
  | .execute _ => Option Execution
  | .siteState .. => Option PatchState
  | .define .. => Unit
  | .compile .. => CompiledMethod
  | .unload _ => Bool

/-- What an initializer does. -/
inductive Program where
  /-- The program ends well. -/
  | done
  /-- The program ends in a fault. -/
  | fail (f : Fault)
  /-- The program leaves a note and goes on. -/
  | note (text : String) (rest : Program)
  /-- The program asks the machine and goes on with the answer. -/
  | call (r : Request) (rest : Except Fault (Reply r) → Program)

namespace Program

/-- Asks the machine; a fault ends the program. -/
def ask (r : Request) (rest : Reply r → Program) : Program :=
  call r fun
    | .ok v => rest v
    | .error f => fail f

/-- Runs one program and, if it ends well, another. -/
def andThen : Program → Program → Program
  | done, q => q
  | fail f, _ => fail f
  | note text p, q => note text (p.andThen q)
  | call r k, q => call r fun v => (k v).andThen q

/-- Runs a program; a fault that would end it is dealt with by another. -/
def catching (handler : Fault → Program) : Program → Program
  | done => done
  | fail f => handler f
  | note text p => note text (catching handler p)
  | call r k => call r fun v => catching handler (k v)

/-- Runs programs one after the other. -/
def sequence : List Program → Program
  | [] => done
  | p :: ps => p.andThen (sequence ps)

end Program

end Linkage
