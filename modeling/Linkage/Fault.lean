import Linkage.LoaderId
import Linkage.Hex

/-!
# Faults

Everything that can go wrong, as causes. A fault belongs to a kind, which is the throwable class
that running code would see, and has a message.
-/

namespace Linkage

/-- The throwable classes that linking can raise. -/
inductive FaultKind where
  | illegalAccess
  | linkage
  | incompatibleClassChange
  | noSuchField
  | noSuchMethod
  | abstractMethod
  | noClassDefFound
  | classNotFound
  | classCircularity
  | verify
  | inInitializer
  | instantiation
  | outOfMemory
  deriving DecidableEq, Repr, Inhabited

/-- The name of the throwable class. -/
def FaultKind.className : FaultKind → String
  | illegalAccess => "java/lang/IllegalAccessError"
  | linkage => "java/lang/LinkageError"
  | incompatibleClassChange => "java/lang/IncompatibleClassChangeError"
  | noSuchField => "java/lang/NoSuchFieldError"
  | noSuchMethod => "java/lang/NoSuchMethodError"
  | abstractMethod => "java/lang/AbstractMethodError"
  | noClassDefFound => "java/lang/NoClassDefFoundError"
  | classNotFound => "java/lang/ClassNotFoundException"
  | classCircularity => "java/lang/ClassCircularityError"
  | verify => "java/lang/VerifyError"
  | inInitializer => "java/lang/ExceptionInInitializerError"
  | instantiation => "java/lang/InstantiationError"
  | outOfMemory => "java/lang/OutOfMemoryError"

/-- The kinds, in the order in which they are declared. -/
def FaultKind.all : List FaultKind :=
  [illegalAccess, linkage, incompatibleClassChange, noSuchField, noSuchMethod, abstractMethod,
    noClassDefFound, classNotFound, classCircularity, verify, inInitializer, instantiation,
    outOfMemory]

/-- The short name of a kind. -/
def FaultKind.name : FaultKind → String
  | illegalAccess => "IllegalAccess"
  | linkage => "LinkageError"
  | incompatibleClassChange => "IncompatibleClassChange"
  | noSuchField => "NoSuchField"
  | noSuchMethod => "NoSuchMethod"
  | abstractMethod => "AbstractMethod"
  | noClassDefFound => "NoClassDefFound"
  | classNotFound => "ClassNotFound"
  | classCircularity => "ClassCircularity"
  | verify => "VerifyError"
  | inInitializer => "ExceptionInInitializer"
  | instantiation => "Instantiation"
  | outOfMemory => "OutOfMemory"

/-- The kind with a short name. -/
def FaultKind.ofName? (s : String) : Option FaultKind := all.find? fun k => k.name = s

/-- A cause of failure. Classes, members and references appear by their texts. -/
inductive Fault where
  -- loading and linking
  /-- No definition or no array class goes by this name. -/
  | classMissing (name : String)
  /-- No loader that `initiating` delegates to knows the class. -/
  | classUnknown (name : String) (initiating : LoaderId)
  /-- A class other than the top of the hierarchy names no superclass. -/
  | superclassMissing (name : String)
  /-- No loader has this identity. -/
  | loaderMissing (loader : LoaderId)
  /-- A class is its own supertype. -/
  | circularity (name : String)
  /-- The named superclass is an interface. -/
  | superclassIsInterface (name superclass : String)
  /-- A named interface is a class. -/
  | interfaceIsClass (name interface : String)
  /-- An array class would have more than 255 dimensions. -/
  | tooManyDimensions (name : String)
  /-- Following superclasses and parents does not come to an end. -/
  | unboundedLoading (name : String)
  -- loading constraints
  /-- A loader got a class other than the one its constrained loaders agreed on. -/
  | boundElsewhere (loader : LoaderId) (name : String) (definer boundDefiner : LoaderId)
  /-- Two loaders that have to agree on a class have different ones. -/
  | loadersDisagree (a b : LoaderId) (name : String)
  -- resolution
  /-- The class is not accessible to the referring class. -/
  | classInaccessible (referer : String) (method : Option String) (name : String)
  /-- The member is not accessible to the referring class. -/
  | memberInaccessible (referer member : String)
  /-- A subtype constraint fails. -/
  | notAssignable (kind : FaultKind) (value dest referer : String)
  | fieldMissing (reference : String)
  | methodMissing (reference : String)
  /-- The reference and the member found disagree on whether the member is static. -/
  | wrongStaticness (expectedStatic : Bool) (member : String)
  /-- An interface method reference names a class. -/
  | interfaceExpected (name : String)
  /-- A method reference names an interface. -/
  | classExpected (name : String)
  -- creating references
  | uninitializedAccess (method : String)
  | notAnObject (method type : String)
  | badStore (method type field : String)
  | staticAndSpecial (method reference : String)
  | argumentCount (method : String) (count : Nat) (reference : String)
  -- instructions
  | referenceRequired (opcode : String)
  | wrongOperandKind (opcode kind : String)
  | wrongReference (opcode reference : String)
  -- initialization
  /-- An earlier attempt to initialize the class failed. -/
  | erroneousClass (name : String)
  /-- The initializer of the class ended in a fault. -/
  | initializerFailed (cause : Fault) (name : String)
  /-- Initializers that start one another, or make more of them known, do not come to an end. -/
  | unboundedInitialization (name : String)
  -- compiled code
  | noPatcher (opcode : String)
  | patchOutside (index : Nat)
  | staticStorageMissing (field : String)
  | codeAreaTooLarge (words : Nat)
  | codeAreaExhausted (used capacity : Nat)
  /-- A word outside the code area was to be read. -/
  | outsideCodeArea (address : Int)
  /-- A word outside the code area was to be written. -/
  | notACodeWord (address : Int)
  | illegalCodeWord (word : Nat) (address : Int)
  | wrongPatcher (patcher : String)
  | deferredEagerly (reference : String)
  /-- Only classes that are neither abstract nor interfaces have instances. -/
  | notInstantiable (name : String)
  -- raised on request
  /-- A fault that running code raised by itself. -/
  | raised (kind : FaultKind) (message : String)
  deriving DecidableEq, Repr, Inhabited

/-- An address inside or around the code area, relative to its start. -/
def addressText (address : Int) : String :=
  match address with
  | .ofNat n => s!"base+{n}"
  | .negSucc n => s!"base-{n + 1}"

namespace Fault

/-- The throwable class a fault belongs to. -/
def kind : Fault → FaultKind
  | classMissing _ | classUnknown .. | superclassMissing _ | loaderMissing _
  | erroneousClass _ => .noClassDefFound
  | circularity _ => .classCircularity
  | superclassIsInterface .. | interfaceIsClass .. | wrongStaticness .. | interfaceExpected _
  | classExpected _ => .incompatibleClassChange
  | tooManyDimensions _ => .classNotFound
  | boundElsewhere .. | loadersDisagree .. | staticStorageMissing _ | outsideCodeArea _
  | notACodeWord _ | wrongPatcher _ | deferredEagerly _ | unboundedLoading _
  | unboundedInitialization _ => .linkage
  | classInaccessible .. | memberInaccessible .. => .illegalAccess
  | notAssignable k .. => k
  | fieldMissing _ => .noSuchField
  | methodMissing _ => .noSuchMethod
  | uninitializedAccess _ | notAnObject .. | badStore .. | staticAndSpecial .. | argumentCount ..
  | referenceRequired _ | wrongOperandKind .. | wrongReference .. | noPatcher _ | patchOutside _
  | illegalCodeWord .. => .verify
  | initializerFailed .. => .inInitializer
  | codeAreaTooLarge _ | codeAreaExhausted .. => .outOfMemory
  | notInstantiable _ => .instantiation
  | raised k _ => k

/-- What a fault says. -/
def message : Fault → String
  | classMissing name => name
  | classUnknown name l => s!"{name} (initiating loader {l.text})"
  | superclassMissing name => s!"{name} has no superclass"
  | loaderMissing l => s!"unknown class loader {l.text}"
  | circularity name => name
  | superclassIsInterface name s => s!"class {name} has interface {s} as super class"
  | interfaceIsClass name i =>
    s!"class {name} can not implement {i}, because it is not an interface"
  | tooManyDimensions name => s!"{name}: too many dimensions"
  | unboundedLoading name => s!"loading {name} does not end"
  | boundElsewhere l name d b =>
    s!"loading constraint violated: {l.text} loaded {name} (defined by {d.text}) but " ++
      s!"a constrained loader uses the one defined by {b.text}"
  | loadersDisagree a b name =>
    s!"loading constraint violated: {a.text} and {b.text} disagree on class {name}"
  | classInaccessible referer none name => s!"class {referer} cannot access class {name}"
  | classInaccessible referer (some m) name =>
    s!"class {referer} (in {m}) cannot access class {name}"
  | memberInaccessible referer member => s!"class {referer} cannot access {member}"
  | notAssignable _ value dest referer =>
    s!"{value} is not assignable to {dest} (referenced from {referer})"
  | fieldMissing reference => reference
  | methodMissing reference => reference
  | wrongStaticness true member => s!"Expected static {member}"
  | wrongStaticness false member => s!"Expected non-static {member}"
  | interfaceExpected name => s!"Found class {name}, but interface was expected"
  | classExpected name => s!"Found interface {name}, but class was expected"
  | uninitializedAccess m => s!"{m}: accessing member of uninitialized object"
  | notAnObject m type => s!"{m}: expected object reference, found {type}"
  | badStore m type field => s!"{m}: cannot store {type} into field {field}"
  | staticAndSpecial m reference => s!"{m}: {reference} cannot be both static and special"
  | argumentCount m n reference => s!"{m}: {n} arguments passed to {reference}"
  | referenceRequired opcode => s!"{opcode} requires a constant pool reference"
  | wrongOperandKind opcode kind => s!"{opcode} does not take a {kind} operand"
  | wrongReference opcode reference => s!"{opcode} does not match {reference}"
  | erroneousClass name => s!"Could not initialize class {name}"
  | initializerFailed cause name =>
    let text := cause.kind.className ++ ": " ++ cause.message
    s!"{text} in initializer of {name}"
  | unboundedInitialization name => s!"initializing {name} does not end"
  | noPatcher opcode => s!"{opcode} has no patcher"
  | patchOutside i => s!"Patch for missing instruction {i}"
  | staticStorageMissing field => s!"{field} has no static storage"
  | codeAreaTooLarge words => s!"Code area of {words} words is too large"
  | codeAreaExhausted used capacity =>
    s!"Code area exhausted ({used} of {capacity} words used)"
  | outsideCodeArea address => s!"{addressText address} is outside the code area"
  | notACodeWord address => s!"{addressText address} is not a word of the code area"
  | illegalCodeWord word address =>
    s!"Illegal code word {hexPadded 16 word} at {addressText address}"
  | wrongPatcher patcher => s!"{patcher} cannot patch"
  | deferredEagerly reference => s!"Eager resolution of {reference} was deferred"
  | notInstantiable name => name
  | raised _ text => text

/-- A fault with its throwable class, as it is shown to a user. -/
def text (f : Fault) : String := s!"{f.kind.className}: {f.message}"

end Fault

end Linkage
