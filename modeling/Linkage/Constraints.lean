import Linkage.Class.Basic
import Linkage.Fault
import Linkage.Table

/-!
# Loading constraints

For every class name the loaders fall into groups that have to agree on the class of that name. A
group is bound to a class as soon as one of its loaders has loaded it; from then on no loader of
the group may get another one.
-/

namespace Linkage

/-- Loaders that have to agree on the class of one name. -/
structure LoaderGroup where
  /-- The loaders, in the order in which they joined. -/
  loaders : List LoaderId
  /-- The class they agreed on. -/
  bound : Option Class

/-- The groups of loaders, by class name. -/
structure Constraints where
  /-- The groups of each name. -/
  groups : Table String (List LoaderGroup) := {}

/-- Takes an element out of a list and fills the gap with the last one. -/
def swapRemove {α : Type} (xs : List α) (i : Nat) : List α :=
  match xs.getLast? with
  | some last => (xs.set i last).dropLast
  | none => []

namespace Constraints

/-- The groups of a name. -/
def groupsOf (t : Constraints) (name : String) : List LoaderGroup :=
  (t.groups.get? name).getD []

/-- The position of the group of a loader among the groups of a name. -/
def groupIndex? (t : Constraints) (name : String) (l : LoaderId) : Option Nat :=
  (t.groupsOf name).findIdx? fun g => g.loaders.contains l

/-- The group of a loader for a name. -/
def group? (t : Constraints) (name : String) (l : LoaderId) : Option LoaderGroup :=
  (t.groupsOf name).find? fun g => g.loaders.contains l

/-- The class that the group of a loader is bound to. -/
def bound? (t : Constraints) (name : String) (l : LoaderId) : Option Class :=
  (t.group? name l).bind LoaderGroup.bound

/-- The loaders that have to agree with a loader on a name, the loader itself among them. -/
def loadersOf (t : Constraints) (name : String) (l : LoaderId) : List LoaderId :=
  ((t.group? name l).map LoaderGroup.loaders).getD [l]

/-- The number of groups over all names. -/
def size (t : Constraints) : Nat :=
  t.groups.total List.length

/-- Whether two loaders already have to agree on a name. -/
def related (t : Constraints) (name : String) (a b : LoaderId) : Bool :=
  a = b || ((t.groupIndex? name a).isSome && t.groupIndex? name a = t.groupIndex? name b)

/-- Puts a loader at the end of a list unless it is in it. -/
def enrol (ls : List LoaderId) (l : LoaderId) : List LoaderId :=
  if l ∈ ls then ls else ls ++ [l]

/-- Takes the groups at some positions out of a list, collecting their loaders. The positions come
highest first, so that those still to come stay valid. -/
def absorb (gs : List LoaderGroup) : List Nat → List LoaderId × List LoaderGroup
  | [] => ([], gs)
  | i :: is =>
    let members := ((gs[i]?).map LoaderGroup.loaders).getD []
    let r := absorb (swapRemove gs i) is
    (members ++ r.1, r.2)

/-- The positions of up to two groups, the highest first. -/
def positions : Option Nat → Option Nat → List Nat
  | some i, some j => if i < j then [j, i] else [i, j]
  | some i, none => [i]
  | none, some j => [j]
  | none, none => []

/-- Makes one group out of those of two loaders. -/
def join (t : Constraints) (name : String) (a b : LoaderId) (bound : Option Class) : Constraints :=
  let (members, rest) :=
    absorb (t.groupsOf name) (positions (t.groupIndex? name a) (t.groupIndex? name b))
  { groups := t.groups.insert name (rest ++ [⟨enrol (enrol members a) b, bound⟩]) }

/-- Makes two loaders agree on a name. `loaded` says what a loader has loaded under the name; it
counts where the loader's group is not bound yet. The answer says whether the table changed. -/
def add (t : Constraints) (name : String) (a b : LoaderId) (loaded : LoaderId → Option Class) :
    Except Fault (Bool × Constraints) :=
  if t.related name a b then .ok (false, t)
  else
    let known (l : LoaderId) := (t.bound? name l).or (loaded l)
    match known a, known b with
    | some x, some y =>
      if x.same y then .ok (true, t.join name a b (some x))
      else .error (.loadersDisagree a b name)
    | x, y => .ok (true, t.join name a b (x.or y))

/-- Binds the group of a loader to a class unless it is bound already. -/
def bind (t : Constraints) (l : LoaderId) (c : Class) : Constraints :=
  { groups := t.groups.modify c.name fun gs =>
      match gs.findIdx? fun g => g.loaders.contains l with
      | some i => gs.modify i fun g => { g with bound := some (g.bound.getD c) }
      | none => gs }

/-- Lets a loader have a class unless its group is bound to another one. -/
def accept (t : Constraints) (l : LoaderId) (c : Class) : Except Fault Constraints :=
  match t.bound? c.name l with
  | some b =>
    if b.same c then .ok (t.bind l c) else .error (.boundElsewhere l c.name c.loader b.loader)
  | none => .ok (t.bind l c)

end Constraints

end Linkage
