import Linkage.Access
import Linkage.Area.Load
import Linkage.Reference

/-!
# The resolver

The resolver turns names into classes on behalf of a referring class. Asked lazily it loads nothing
and leaves a question open when a class that it needs is missing; the whole question is asked again
later.
-/

namespace Linkage

/-- Whether resolution may load classes. -/
inductive ResolveMode where
  /-- Load nothing, and defer when a class is missing. -/
  | lazy
  /-- Load whatever is needed. -/
  | eager
  deriving DecidableEq, Repr

/-- How the resolver behaves. -/
structure ResolverConfig where
  /-- Report successes to the user. -/
  verbose : Bool := false
  /-- Make the loaders of referring and declaring classes agree on the types in between. -/
  loadingConstraints : Bool := true
  /-- Take every question as an eager one. -/
  eager : Bool := false
  deriving DecidableEq, Repr

/-- How many questions were asked, and how often one had to be left open on the way. -/
structure ResolverStats where
  classes : Nat := 0
  fields : Nat := 0
  methods : Nat := 0
  deferred : Nat := 0
  deriving DecidableEq, Repr

/-- The state of the resolver, the class area included. -/
structure Resolver where
  /-- The class area. -/
  area : Area
  /-- How the resolver behaves. -/
  config : ResolverConfig := {}
  /-- What was counted so far. -/
  stats : ResolverStats := {}
  /-- The successes that were reported, the oldest first. -/
  reports : List String := []

/-- An operation of the resolver that may fail. -/
abbrev ResolverM := EStateM Fault Resolver

/-- A resolution: it succeeds, fails, or is deferred. -/
abbrev ResolutionM := OptionT ResolverM

namespace Resolver

/-- Runs an operation on the class area. -/
def onArea {α : Type} (x : AreaM α) : ResolverM α := fun r =>
  match x r.area with
  | .ok v a => .ok v { r with area := a }
  | .error e a => .error e { r with area := a }

instance : MonadLift AreaM ResolverM := ⟨onArea⟩

/-- Runs an operation on the class area as part of a resolution. -/
def perform {α : Type} (x : AreaM α) : ResolutionM α := OptionT.lift (onArea x)

/-- The state of the resolver. -/
def current : ResolutionM Resolver := OptionT.lift get

/-- Fails. -/
def fail {α : Type} (f : Fault) : ResolutionM α := OptionT.lift (throw f)

/-- Leaves the question open. -/
def defer {α : Type} : ResolutionM α := OptionT.fail

/-- Counts one more deferral if the resolution is deferred. -/
def counted {α : Type} (x : ResolutionM α) : ResolutionM α := OptionT.mk do
  match ← x.run with
  | some v => return some v
  | none =>
    modify fun r => { r with stats := { r.stats with deferred := r.stats.deferred + 1 } }
    return none

/-- Changes what was counted. -/
def count (f : ResolverStats → ResolverStats) : ResolutionM Unit :=
  OptionT.lift (modify fun r => { r with stats := f r.stats })

/-- Reports a success. -/
def report (what result : String) : ResolutionM Unit :=
  let line := s!"Resolved {what} to {result}"
  OptionT.lift (modify fun r => { r with reports := r.reports ++ [line] })

/-- The mode in which a question is really taken. -/
def effective (mode : ResolveMode) : ResolutionM ResolveMode := do
  let r ← current
  return if r.config.eager then .eager else mode

/-! ### Classes by name -/

/-- The class that a plain name means to a loader. -/
def resolvePlain (l : LoaderId) (mode : ResolveMode) (name : String) : ResolutionM Class := do
  match ← perform (Area.findSpelled l (.plain name)), mode with
  | some c, _ => return c
  | none, .lazy => defer
  | none, .eager => perform (Area.load l name)

/-- The class that a name, taken apart, means to a loader. Arrays resolve their component first;
those over primitive types always exist. -/
def resolveSpelled (l : LoaderId) (mode : ResolveMode) : Spelling → ResolutionM Class
  | .plain name => resolvePlain l mode name
  | .nested name s => do
    if (Spelling.nested name s).isShort then perform (Area.load l name)
    else
      let component ← resolveSpelled l mode s
      perform (Area.arrayOf component)
  | .object name s => do
    if (Spelling.object name s).isShort then perform (Area.load l name)
    else
      let component ← resolveSpelled l mode s
      perform (Area.arrayOf component)
  | .unclosed name =>
    if (Spelling.unclosed name).isShort then perform (Area.load l name)
    else fail (.classMissing name)
  | .bare name s => do
    if (Spelling.bare name s).isShort then perform (Area.load l name)
    else
      let component ← resolvePlain l mode s
      perform (Area.arrayOf component)

/-- The class that a name means in the code of a referring class, or of one of its methods. -/
def resolveName (referer : Class) (method : Option MethodHandle) (name : String)
    (mode : ResolveMode) (checkAccess : Bool) : ResolutionM Class := do
  let mode ← effective mode
  let c ← resolveSpelled referer.loader mode (.ofName name)
  if checkAccess && !referer.canAccess c then
    fail (.classInaccessible referer.name (method.map MethodHandle.text) c.name)
  else return c

/-- The class that is mentioned, without a check of access. -/
def resolveMention (m : Mention) (mode : ResolveMode) : ResolutionM Class :=
  match m with
  | .loaded c => return c
  | .symbolic r => resolveName r.referer none r.name mode false

end Resolver

end Linkage
