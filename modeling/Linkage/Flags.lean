/-!
# Access flags

Sixteen bits say how a class, a field or a method was declared. Which bit means what depends on
which of the three is described; the low bits, which hold the visibility, agree.
-/

namespace Linkage

/-- The access flags of a declaration. -/
abbrev Flags := UInt16

/-- One access flag: its name and its bit. -/
structure Flag where
  /-- The name under which the flag is listed. -/
  name : String
  /-- The bit that is set when the flag is. -/
  mask : UInt16
  deriving DecidableEq, Repr

namespace Flag

def accPublic : Flag := ⟨"ACC_PUBLIC", 0x0001⟩
def accPrivate : Flag := ⟨"ACC_PRIVATE", 0x0002⟩
def accProtected : Flag := ⟨"ACC_PROTECTED", 0x0004⟩
def accStatic : Flag := ⟨"ACC_STATIC", 0x0008⟩
def accFinal : Flag := ⟨"ACC_FINAL", 0x0010⟩
def accSuper : Flag := ⟨"ACC_SUPER", 0x0020⟩
def accSynchronized : Flag := ⟨"ACC_SYNCHRONIZED", 0x0020⟩
def accVolatile : Flag := ⟨"ACC_VOLATILE", 0x0040⟩
def accBridge : Flag := ⟨"ACC_BRIDGE", 0x0040⟩
def accTransient : Flag := ⟨"ACC_TRANSIENT", 0x0080⟩
def accVarargs : Flag := ⟨"ACC_VARARGS", 0x0080⟩
def accNative : Flag := ⟨"ACC_NATIVE", 0x0100⟩
def accInterface : Flag := ⟨"ACC_INTERFACE", 0x0200⟩
def accAbstract : Flag := ⟨"ACC_ABSTRACT", 0x0400⟩
def accStrict : Flag := ⟨"ACC_STRICT", 0x0800⟩
def accSynthetic : Flag := ⟨"ACC_SYNTHETIC", 0x1000⟩
def accAnnotation : Flag := ⟨"ACC_ANNOTATION", 0x2000⟩
def accEnum : Flag := ⟨"ACC_ENUM", 0x4000⟩

/-- The flags a class can have. -/
def ofClass : List Flag :=
  [accPublic, accFinal, accSuper, accInterface, accAbstract, accSynthetic, accAnnotation, accEnum]

/-- The flags a field can have. -/
def ofField : List Flag :=
  [accPublic, accPrivate, accProtected, accStatic, accFinal, accVolatile, accTransient,
    accSynthetic, accEnum]

/-- The flags a method can have. -/
def ofMethod : List Flag :=
  [accPublic, accPrivate, accProtected, accStatic, accFinal, accSynchronized, accBridge,
    accVarargs, accNative, accAbstract, accStrict, accSynthetic]

end Flag

/-- Whether a flag is set. -/
def Flags.has (flags : Flags) (f : Flag) : Bool :=
  flags &&& f.mask = f.mask

/-- The flags of a list that are set, in the order of the list. -/
def Flags.select (flags : Flags) (all : List Flag) : List Flag :=
  all.filter flags.has

/-- From where a member may be used. -/
inductive Visibility where
  /-- From everywhere. -/
  | everywhere
  /-- From the package of the declaring class and from its subclasses. -/
  | subclasses
  /-- From the package of the declaring class. -/
  | package
  /-- From the declaring class. -/
  | declarer
  deriving DecidableEq, Repr

/-- The visibility of a member. The public flag goes before the private one, and that before the
protected one. -/
def Flags.visibility (flags : Flags) : Visibility :=
  if flags.has .accPublic then .everywhere
  else if flags.has .accPrivate then .declarer
  else if flags.has .accProtected then .subclasses
  else .package

/-- The name of a visibility. -/
def Visibility.name : Visibility → String
  | everywhere => "Public"
  | subclasses => "Protected"
  | package => "Package"
  | declarer => "Private"

end Linkage
