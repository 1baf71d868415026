import Linkage.Area.Array

/-!
# Mentions of classes

Code speaks of a class either by holding the loaded class or by naming it from a referring class,
whose loader decides what the name means.
-/

namespace Linkage

/-- A class named from the code of a referring class. -/
structure ClassRef where
  /-- The class whose code names the other one. -/
  referer : Class
  /-- The name. -/
  name : String

/-- A class that is loaded or only named. -/
inductive Mention where
  /-- A loaded class. -/
  | loaded (c : Class)
  /-- A class that is named and may not be loaded yet. -/
  | symbolic (r : ClassRef)

/-- Whether two references name the same thing from the same class. -/
def ClassRef.same (a b : ClassRef) : Bool :=
  a.referer.same b.referer && a.name = b.name

namespace Mention

/-- The name of the class. -/
def name : Mention → String
  | loaded c => c.name
  | symbolic r => r.name

/-- The loader that decides which class is meant: for a loaded class, the one that defined it. -/
def loader : Mention → LoaderId
  | loaded c => c.loader
  | symbolic r => r.referer.loader

/-- Whether the class is the top of the hierarchy, going by its name. -/
def isObject (m : Mention) : Bool := m.name = objectName

/-- Whether two mentions are the same as expressions: a loaded class is never a named one. -/
def same : Mention → Mention → Bool
  | loaded a, loaded b => a.same b
  | symbolic a, symbolic b => a.same b
  | _, _ => false

/-- Whether two mentions are known to mean the same class without loading anything. -/
def knownSame : Mention → Mention → Bool
  | loaded a, loaded b => a.same b
  | a, b => a.name = b.name && a.loader = b.loader

/-- The class that is meant, if it is loaded. -/
def find : Mention → AreaM (Option Class)
  | loaded c => return some c
  | symbolic r => Area.findLoaded r.referer.loader r.name

@[simp]
theorem knownSame_self (m : Mention) : m.knownSame m = true := by
  cases m <;> simp [knownSame]

end Mention

/-- Mentions as messages list them. -/
def mentionsText (ms : List Mention) : String :=
  "\x7b" ++ String.intercalate ", " (ms.map Mention.name) ++ "\x7d"

end Linkage
