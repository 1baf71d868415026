/-!
# Class loaders

A class loader is known by its number. Loader 0 is the bootstrap loader, which has no parent and
holds the classes that every run starts with.
-/

namespace Linkage

/-- The identity of a class loader. -/
structure LoaderId where
  /-- Loaders are numbered from 0 in the order in which they are added. -/
  number : Nat
  deriving DecidableEq, Repr

namespace LoaderId

/-- The loader of the classes that are there from the start. -/
def bootstrap : LoaderId := ⟨0⟩

/-- How messages name a loader. -/
def text (l : LoaderId) : String :=
  if l = bootstrap then "<bootstrap>" else s!"loader#{l.number}"

end LoaderId

end Linkage
