import Linkage.Area.Boot
import Linkage.Machine.Basic

/-!
# Options

The options a machine is started with, read from a list of words. Words are taken in order, and the
first that cannot be an option ends the reading; how often options were given and what values they
got is looked at afterwards.
-/

namespace Linkage

/-- The options of a machine. -/
structure Options where
  /-- Report every success of the resolver. -/
  verboseResolve : Bool := false
  /-- Let loaders disagree on classes. -/
  noLoadingConstraints : Bool := false
  /-- Resolve while compiling rather than when an instruction first runs. -/
  eagerResolution : Bool := false
  /-- The size of the code area in words. -/
  codeArea : Nat := 65536
  deriving DecidableEq, Repr

/-- The resolver configuration that options ask for. -/
def Options.config (o : Options) : ResolverConfig :=
  ⟨o.verboseResolve, !o.noLoadingConstraints, o.eagerResolution⟩

/-- A machine with these options. -/
def Options.machine (o : Options) : Except Fault Machine := do
  let memory ← CodeMemory.create o.codeArea
  return { resolver := { area := .initial, config := o.config }, memory := memory }

/-- Why a list of words is refused. -/
inductive Rejection where
  /-- A word is no option. -/
  | unknownArgument
  /-- An option lacks its value. -/
  | emptyValue
  /-- The value of an option is not of the right form. -/
  | valueValidation
  /-- An option is given twice. -/
  | unexpectedMultipleUsage
  /-- An option that takes no value has one. -/
  | tooManyValues
  /-- Help is asked for. -/
  | displayHelp
  deriving DecidableEq, Repr

/-- The name of a reason. -/
def Rejection.name : Rejection → String
  | unknownArgument => "UnknownArgument"
  | emptyValue => "EmptyValue"
  | valueValidation => "ValueValidation"
  | unexpectedMultipleUsage => "UnexpectedMultipleUsage"
  | tooManyValues => "TooManyValues"
  | displayHelp => "DisplayHelp"

namespace Options

/-- The options there are. -/
inductive Switch where
  | verboseResolve
  | noLoadingConstraints
  | eagerResolution
  | codeArea
  deriving DecidableEq, Repr

/-- The option with a name. -/
def Switch.ofName? : String → Option Switch
  | "verbose-resolve" => some verboseResolve
  | "no-loading-constraints" => some noLoadingConstraints
  | "eager-resolution" => some eagerResolution
  | "code-area" => some codeArea
  | _ => none

/-- How an option was given. -/
structure Given where
  switch : Switch
  /-- How many times it was given. -/
  times : Nat
  /-- The values it got. -/
  values : List String

/-- What was read of a list of words. -/
structure Scan where
  /-- The options that were given, each where it came first. -/
  given : List Given := []
  /-- Whether the next word may be the size of the code area. -/
  awaiting : Bool := false
  /-- Whether all options have been read. -/
  closed : Bool := false

/-- The largest number of words that can be asked for. -/
def maxSize : Nat := 0xffffffffffffffff

/-- The number that decimal digits stand for. -/
def digitsValue? (cs : List Char) : Option Nat :=
  if cs.isEmpty || !cs.all Char.isDigit then none
  else
    let n := cs.foldl (fun n c => 10 * n + (c.toNat - '0'.toNat)) 0
    if n ≤ maxSize then some n else none

/-- The number that a text stands for; it may start with a plus sign. -/
def size? (s : String) : Option Nat :=
  match s.toList with
  | '+' :: cs => digitsValue? cs
  | cs => digitsValue? cs

namespace Scan

/-- Remembers that an option was given, with the values that came attached. -/
def give (s : Scan) (o : Switch) (values : List String) : Scan :=
  if s.given.any fun g => g.switch = o then
    { s with given := s.given.map fun g =>
        if g.switch = o then { g with times := g.times + 1, values := g.values ++ values } else g }
  else { s with given := s.given ++ [⟨o, 1, values⟩] }

/-- Remembers a value that came in a word of its own. -/
def giveValue (s : Scan) (v : String) : Scan :=
  { s with given := s.given.map fun g =>
      if g.switch = .codeArea then { g with values := g.values ++ [v] } else g }

/-- The values the size of the code area got. -/
def sizes (s : Scan) : List String :=
  (s.given.filter fun g => g.switch = .codeArea).flatMap Given.values

/-- Reads a word that starts with two dashes, given without them. -/
def long (s : Scan) (cs : List Char) : Except Rejection Scan :=
  let name := String.ofList (cs.takeWhile (· ≠ '='))
  let value :=
    match cs.dropWhile (· ≠ '=') with
    | [] => none
    | _ :: v => some (String.ofList v)
  match Switch.ofName? name, value with
  | some .codeArea, some v => .ok { s.give .codeArea [v] with awaiting := false }
  | some .codeArea, none => .ok { s.give .codeArea [] with awaiting := true }
  | some o, none => .ok { s.give o [] with awaiting := false }
  | some _, some _ => .error .tooManyValues
  | none, some _ => .error (if name = "help" then .tooManyValues else .unknownArgument)
  | none, none => .error (if name = "help" then .displayHelp else .unknownArgument)

/-- Reads one word. -/
def word (s : Scan) (w : String) : Except Rejection Scan :=
  if s.closed then .error .unknownArgument
  else
    match w.toList with
    | ['-', '-'] => .ok { s with closed := true }
    | '-' :: '-' :: cs => s.long cs
    | '-' :: 'h' :: _ => .error .displayHelp
    | '-' :: _ :: _ => .error .unknownArgument
    | _ =>
      if s.awaiting then .ok { s.giveValue w with awaiting := false }
      else .error .unknownArgument

/-- Reads words. -/
def words (s : Scan) : List String → Except Rejection Scan
  | [] => .ok s
  | w :: ws => do (← s.word w).words ws

end Scan

/-- Checks how an option was given. -/
def Given.check (g : Given) : Except Rejection Unit :=
  if g.switch = .codeArea && g.values.isEmpty then .error .emptyValue
  else if !g.values.all fun v => (size? v).isSome then .error .valueValidation
  else if 1 < g.times then .error .unexpectedMultipleUsage
  else .ok ()

/-- The options that a list of words asks for. -/
def parse (ws : List String) : Except Rejection Options := do
  let s ← ({} : Scan).words ws
  if s.awaiting && s.sizes.isEmpty then throw .emptyValue
  s.given.forM Given.check
  let has (o : Switch) : Bool := s.given.any fun g => g.switch = o
  return {
    verboseResolve := has .verboseResolve
    noLoadingConstraints := has .noLoadingConstraints
    eagerResolution := has .eagerResolution
    codeArea := (s.sizes.head?.bind size?).getD ({} : Options).codeArea }

end Options

end Linkage
