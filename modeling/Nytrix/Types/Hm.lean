import Nytrix.Types.Names

/-! Inference of types: the arena of type nodes, and unification with its diagnostics. -/

namespace Nytrix.Types

/-- The kinds of types with one part that are treated alike. -/
inductive Box where
  | list | set | tuple | ptr
  deriving DecidableEq

/--
A type node: its kind with the fields that the kind uses.

A pointer to a node is the number of nodes that were made before it; a part may be null.
-/
inductive Shape where
  | any
  | var (instance? : Option Nat)
  | name (n : Name)
  | box (kind : Box) (a : Option Nat)
  | dict (a b : Option Nat)
  | nullable (a : Option Nat)
  | fn (args : List Nat) (a : Option Nat)
  | union (a b : Option Nat)
  | indexable (a : Option Nat)
  deriving DecidableEq

/-- The codes of the diagnostics of unification. -/
inductive HmCode where
  | typeMismatch | occursCheck | arityMismatch | indexTargetMismatch
  deriving DecidableEq

/-- A diagnostic: its code, where it arose, and the two types, which its text spells out. -/
structure HmDiag where
  code : HmCode
  context : Option Name
  want : Nat
  got : Nat
  deriving DecidableEq

/-- The state of inference: the nodes, by their pointers, and the diagnostics so far. -/
structure Hm where
  nodes : List Shape
  diags : List HmDiag
  deriving DecidableEq

/-- The parts of a node, in the order in which they are searched. -/
def Shape.parts : Shape → List Nat
  | .any => []
  | .var _ => []
  | .name _ => []
  | .box _ a => a.toList
  | .dict a b => a.toList ++ b.toList
  | .nullable a => a.toList
  | .fn args a => a.toList ++ args
  | .union a b => a.toList ++ b.toList
  | .indexable a => a.toList

/-- The name of a kind that type names may accept. -/
def Shape.kindName : Shape → Option String
  | .box .list _ => some "list"
  | .box .tuple _ => some "tuple"
  | .box .set _ => some "set"
  | .box .ptr _ => some "ptr"
  | .dict _ _ => some "dict"
  | .fn _ _ => some "fnptr"
  | _ => none

/-- Whether a type name accepts every type of a kind. -/
def hmNameAcceptsKind (name : Name) (s : Shape) : Bool :=
  match s.kindName with
  | none => false
  | some kind =>
    (tpTypeIsGroup name && tpTypeGroupAccepts name (nm kind)) ||
      (if kind = "fnptr" then hmIsCallableName name else name = nm kind)

/-- What remains to be done for two types once the rules for all kinds are through. -/
inductive Plan where
  | accept
  | rename (n : Name)
  | reject (code : HmCode) (flipped : Bool)
  | all (pairs : List (Option Nat × Option Nat))
  | fresh (a : Option Nat) (s : Shape)
  | either (a b : Option Nat)
  deriving DecidableEq

/-- What to do with a type that can be indexed and another one. -/
def indexablePlan (a : Option Nat) (got : Shape) (flipped : Bool) : Plan :=
  let element : Option Nat → Plan
    | some r => .all [(a, some r)]
    | none => .fresh a .any
  match got with
  | .indexable b => .all [(a, b)]
  | .box .ptr _ => .reject .indexTargetMismatch flipped
  | .box _ b => element b
  | .dict _ b => element b
  | .name n =>
    if n = nm "str" then .fresh a (.name (nm "str"))
    else if n = nm "bytes" ∨ n = nm "range" then .fresh a (.name (nm "int"))
    else if n = nm "list" ∨ n = nm "tuple" ∨ n = nm "set" ∨ n = nm "dict" then .fresh a .any
    else .reject .indexTargetMismatch flipped
  | _ => .reject .indexTargetMismatch flipped

/-- What to do with two names. -/
def namePlan (want got : Name) : Plan :=
  if hmGenericBaseSame want got then
    if !hmGenericNameCompatible want got then .reject .typeMismatch false
    else
      match hmMergeGenericName want got with
      | some merged => .rename merged
      | none => .accept
  else if hmNameCompatible want got then .accept
  else .reject .typeMismatch false

/-- What to do with two types, by their kinds. -/
def Shape.plan : Shape → Shape → Plan
  | .indexable a, got => indexablePlan a got false
  | want, .indexable a => indexablePlan a want true
  | .name n, .name m => namePlan n m
  | .box k a, .box l b => if k = l then .all [(a, b)] else .reject .typeMismatch false
  | .nullable a, .nullable b => .all [(a, b)]
  | .dict a b, .dict c d => .all [(a, c), (b, d)]
  | .fn args a, .fn args' a' =>
    if args.length ≠ args'.length then .reject .arityMismatch false
    else .all ((args.map some).zip (args'.map some) ++ [(a, a')])
  | .union a b, .union _ _ => .either a b
  | _, _ => .reject .typeMismatch false

/-- Whether two types go together at once: nil with what may be nil, and a name with a kind. -/
def Shape.accepts (want got : Shape) : Bool :=
  let mayBeNil : Shape → Bool
    | .nullable _ => true
    | .box .ptr _ => true
    | _ => false
  let acceptsKind : Shape → Shape → Bool
    | .name n, s => hmNameAcceptsKind n s
    | _, _ => false
  (got = .name (nm "nil") && mayBeNil want) || (want = .name (nm "nil") && mayBeNil got) ||
    acceptsKind want got || acceptsKind got want

namespace Hm

/-- The node that a pointer is to. -/
def shape (hm : Hm) (r : Nat) : Shape := hm.nodes.getD r .any

/-- Follows the instances of variables, for at most so many steps. -/
def pruneFrom : Nat → List Shape → Nat → Nat
  | 0, _, r => r
  | n + 1, nodes, r =>
    match nodes[r]? with
    | some (.var (some i)) => pruneFrom n nodes i
    | _ => r

/--
What a type stands for: an instance of a variable in its place.

The source shortens the chain that it follows on the way; what a variable stands for is the same.
-/
def prune (hm : Hm) (r : Nat) : Nat := pruneFrom hm.nodes.length hm.nodes r

/-- Whether a node is of any type. -/
def isAnyShape : Shape → Bool
  | .any => true
  | .name n => n = nm "any"
  | _ => false

/-- Whether a type stands for any type. -/
def isAny (hm : Hm) (r : Nat) : Bool := isAnyShape (hm.shape (hm.prune r))

/-- Whether a variable occurs in a type, to a depth. -/
def occursFrom : Nat → Hm → Nat → Nat → Bool
  | 0, _, _, _ => false
  | n + 1, hm, needle, r =>
    if hm.prune r = needle then true
    else (hm.shape (hm.prune r)).parts.any fun c => occursFrom n hm needle c

/-- Whether a variable occurs in a type. -/
def occurs (hm : Hm) (needle haystack : Nat) : Bool :=
  occursFrom hm.nodes.length hm needle haystack

/-- The state with one more diagnostic. -/
def diag (hm : Hm) (code : HmCode) (context : Option Name) (want got : Nat) : Hm :=
  { hm with diags := hm.diags ++ [⟨code, context, want, got⟩] }

/-- The state with another node at a pointer. -/
def setNode (hm : Hm) (r : Nat) (s : Shape) : Hm := { hm with nodes := hm.nodes.set r s }

/-- The state with one more node, which the number of nodes before points to. -/
def alloc (hm : Hm) (s : Shape) : Hm := { hm with nodes := hm.nodes ++ [s] }

end Hm

/-- Unification of two types in a state: whether it succeeds, and the state that it leaves. -/
abbrev Unifier := Hm → Option Nat → Option Nat → Option (Bool × Hm)

/-- Unifies pairs of types one after the other, as long as it succeeds. -/
def unifyAll (unify : Unifier) (hm : Hm) : List (Option Nat × Option Nat) → Option (Bool × Hm)
  | [] => some (true, hm)
  | pair :: pairs =>
    match unify hm pair.1 pair.2 with
    | some (true, hm) => unifyAll unify hm pairs
    | result => result

/-- The text for where the target of an index is, when there is none. -/
def indexTarget : Name := nm "index target"

/-- Does for two types what remains to be done. -/
def Plan.run (unify : Unifier) (context : Option Name) (hm : Hm) (w g : Nat) :
    Plan → Option (Bool × Hm)
  | .accept => some (true, hm)
  | .rename n => some (true, hm.setNode w (.name n))
  | .reject .indexTargetMismatch flipped =>
    let context := some (context.getD indexTarget)
    some (false, if flipped then hm.diag .indexTargetMismatch context g w
      else hm.diag .indexTargetMismatch context w g)
  | .reject code _ => some (false, hm.diag code context w g)
  | .all pairs => unifyAll unify hm pairs
  | .fresh a s => unify (hm.alloc s) a (some hm.nodes.length)
  | .either a b =>
    match unify hm a (some g) with
    | some (false, hm) =>
      match unify hm b (some g) with
      | some (false, hm) => some (false, hm.diag .typeMismatch context w g)
      | result => result
    | result => result

/-- Tries the part of a type that may be nil against another type; nothing for other types. -/
def tryPart (s : Shape) (hm : Hm) (unify : Option Nat → Option (Bool × Hm)) :
    Option (Bool × Hm) :=
  match s with
  | .nullable a => unify a
  | _ => some (false, hm)

/-- Unifies two types, neither of them a variable, by their nodes. -/
def unifyNodes (unify : Unifier) (context : Option Name) (hm : Hm) (w g : Nat) :
    Option (Bool × Hm) :=
  let sw := hm.shape w
  let sg := hm.shape g
  if sw.accepts sg then some (true, hm)
  else
    match tryPart sw hm fun a => unify hm a (some g) with
    | some (false, hm₁) =>
      match tryPart sg hm₁ fun a => unify hm₁ (some w) a with
      | some (false, hm₂) => (sw.plan sg).run unify context hm₂ w g
      | result => result
    | result => result

/-- Unifies two types, given how their parts are unified. -/
def unifyStep (unify : Unifier) (context : Option Name) : Unifier
  | hm, some want, some got =>
    let w := hm.prune want
    let g := hm.prune got
    if w = g ∨ hm.isAny w ∨ hm.isAny g then some (true, hm)
    else
      match hm.shape w, hm.shape g with
      | .var _, _ =>
        if hm.occurs w g then some (false, hm.diag .occursCheck context w g)
        else some (true, hm.setNode w (.var (some g)))
      | _, .var _ => unify hm (some g) (some w)
      | _, _ => unifyNodes unify context hm w g
  | hm, _, _ => some (true, hm)

/-- Unifies two types, to a depth; `none` when the depth does not suffice. -/
def hmUnify (context : Option Name) : Nat → Unifier
  | 0 => fun _ _ _ => none
  | depth + 1 => unifyStep (hmUnify context depth) context

end Nytrix.Types
