import Mathlib.Logic.Relation
import Nytrix.Lib.Machine

/-! Types with variables, and their unification by binding variables in place. -/

namespace Nytrix.Infer

open Nytrix.Lib

/-- A node of a type: a name, a variable with its links, a function type, or a type application. -/
inductive Node where
  | concrete (name : String)
  /-- A variable that is its own parent and has no bound is free. -/
  | var (id parent : Nat) (bound : Option Nat)
  | arrow (param ret : Option Nat)
  | apply (name : String) (arg0 arg1 : Option Nat) (arity : Int)
  deriving DecidableEq

/-- All nodes that have been made; a pointer is the number of a node, or null. -/
structure Arena where
  nodes : List Node
  nextVarId : Nat
  deriving DecidableEq

namespace Arena

/-- One more node. -/
def alloc (s : Arena) (n : Node) : Arena := { s with nodes := s.nodes ++ [n] }

/-- A pointer is null, or to a node. -/
def Has (s : Arena) (t : Option Nat) : Prop := ∀ x, t = some x → x < s.nodes.length

/-- Links a variable to another parent. -/
def setParent (s : Arena) (t r : Nat) : Arena :=
  { s with nodes := s.nodes.modify t fun
    | .var id _ bound => .var id r bound
    | n => n }

/-- Links a variable to what it is bound to. -/
def setBound (s : Arena) (t r : Nat) : Arena :=
  { s with nodes := s.nodes.modify t fun
    | .var id parent _ => .var id parent (some r)
    | n => n }

/-- Binds a variable. -/
def bind (s : Arena) (x y : Nat) : Arena := (s.setParent x y).setBound x y

end Arena

/-- A type with a name; without one it is any type. -/
def nyTypeConcrete (s : Arena) (name : String) : Nat × Arena :=
  (s.nodes.length, s.alloc (.concrete (if name = "" then "any" else name)))

/-- A fresh variable. -/
def nyTypeVar (s : Arena) : Nat × Arena :=
  (s.nodes.length,
    { nodes := s.nodes ++ [.var s.nextVarId s.nodes.length none], nextVarId := s.nextVarId + 1 })

/-- A function type. -/
def nyTypeArrow (s : Arena) (param ret : Option Nat) : Nat × Arena :=
  (s.nodes.length, s.alloc (.arrow param ret))

/-- The application of a named type. -/
def nyTypeApply (s : Arena) (name : String) (arg0 arg1 : Option Nat) (arity : Int) : Nat × Arena :=
  (s.nodes.length, s.alloc (.apply (if name = "" then "type" else name) arg0 arg1 arity))

/-- What a node stands for, with the links on the way shortened. -/
def findNode : Nat → Arena → Nat → Option (Nat × Arena)
  | 0, _, _ => none
  | fuel + 1, s, t =>
    match s.nodes[t]? with
    | some (.var _ parent bound) =>
      if parent ≠ t then
        (findNode fuel s parent).map fun found => (found.1, found.2.setParent t found.1)
      else match bound with
        | some b => (findNode fuel s b).map fun found => (found.1, found.2.setBound t found.1)
        | none => some (t, s)
    | _ => some (t, s)

/-- What a type stands for. -/
def nyTypeFind (fuel : Nat) (s : Arena) : Option Nat → Option (Option Nat × Arena)
  | none => some (none, s)
  | some t => (findNode fuel s t).map fun found => (some found.1, found.2)

/-- Whether a type occurs in another one. -/
def nyTypeOccurs : Nat → Arena → Option Nat → Option Nat → Option (Bool × Arena)
  | 0, _, _, _ => none
  | fuel + 1, s, needle, haystack =>
    (nyTypeFind fuel s needle).bind fun n =>
      (nyTypeFind fuel n.2 haystack).bind fun h =>
        let eitherOf := fun (p q : Option Nat) =>
          (nyTypeOccurs fuel h.2 n.1 p).bind fun first =>
            if first.1 then some (true, first.2) else nyTypeOccurs fuel first.2 n.1 q
        match n.1, h.1 with
        | some x, some y =>
          if x = y then some (true, h.2)
          else match h.2.nodes[y]? with
            | some (.arrow param ret) => eitherOf param ret
            | some (.apply _ arg0 arg1 _) => eitherOf arg0 arg1
            | _ => some (false, h.2)
        | _, _ => some (false, h.2)

/-- Whether a type is any type. -/
def nyTypeIsAny (fuel : Nat) (s : Arena) (t : Option Nat) : Option (Bool × Arena) :=
  (nyTypeFind fuel s t).map fun found =>
    (found.1.any fun r => found.2.nodes[r]? = some (.concrete "any"), found.2)

/-- Unifies two pairs of types, the second one if the first two types unify. -/
def unifyBoth (unify : Arena → Option Nat → Option Nat → Option (Bool × Arena)) (s : Arena)
    (p p' q q' : Option Nat) : Option (Bool × Arena) :=
  (unify s p p').bind fun first => if first.1 then unify first.2 q q' else some (false, first.2)

/-- Unifies two nodes that stand for themselves, differ, and are not any type. -/
def unifyNodes (fuel : Nat) (unify : Arena → Option Nat → Option Nat → Option (Bool × Arena))
    (s : Arena) (x y : Nat) : Option (Bool × Arena) :=
  match s.nodes[x]?, s.nodes[y]? with
  | some (.var _ _ _), _ =>
    (nyTypeOccurs fuel s (some x) (some y)).map fun occurs =>
      if occurs.1 then (false, occurs.2) else (true, occurs.2.bind x y)
  | _, some (.var _ _ _) => unify s (some y) (some x)
  | some (.concrete name), some (.concrete name') => some (name = name', s)
  | some (.arrow param ret), some (.arrow param' ret') => unifyBoth unify s param param' ret ret'
  | some (.apply name arg0 arg1 arity), some (.apply name' arg0' arg1' arity') =>
    if name = name' ∧ arity = arity' then unifyBoth unify s arg0 arg0' arg1 arg1'
    else some (false, s)
  | _, _ => some (false, s)

/-- Makes two types equal by binding variables, if that is possible. -/
def nyTypeUnify : Nat → Arena → Option Nat → Option Nat → Option (Bool × Arena)
  | 0, _, _, _ => none
  | fuel + 1, s, a, b =>
    (nyTypeFind fuel s a).bind fun foundA =>
      (nyTypeFind fuel foundA.2 b).bind fun foundB =>
        match foundA.1, foundB.1 with
        | some x, some y =>
          if x = y then some (true, foundB.2)
          else (nyTypeIsAny fuel foundB.2 (some x)).bind fun anyA =>
            if anyA.1 then some (true, anyA.2)
            else (nyTypeIsAny fuel anyA.2 (some y)).bind fun anyB =>
              if anyB.1 then some (true, anyB.2)
              else unifyNodes fuel (nyTypeUnify fuel) anyB.2 x y
        | _, _ => some (true, foundB.2)

/-- Writes two types, one after the other. -/
def writeBoth (write : Arena → Option Nat → Option (String × Arena)) (s : Arena) (p q : Option Nat)
    (join : String → String → String) : Option (String × Arena) :=
  (write s p).bind fun first =>
    (write first.2 q).map fun second => (join first.1 second.1, second.2)

/-- How a type is written. -/
def nyTypeToString : Nat → Arena → Option Nat → Option (String × Arena)
  | 0, _, _ => none
  | fuel + 1, s, t =>
    (nyTypeFind fuel s t).bind fun found =>
      match found.1.bind fun r => found.2.nodes[r]? with
      | none => some ("any", found.2)
      | some (.concrete name) => some (name, found.2)
      | some (.var id _ _) => some ("'t" ++ toString id, found.2)
      | some (.arrow param ret) =>
        writeBoth (nyTypeToString fuel) found.2 param ret fun p r => "fn(" ++ p ++ ")->" ++ r
      | some (.apply name arg0 arg1 arity) =>
        writeBoth (nyTypeToString fuel) found.2 arg0 arg1 fun a b =>
          if arity ≤ 0 then name
          else if arity = 1 then name ++ "<" ++ a ++ ">"
          else name ++ "<" ++ a ++ ", " ++ b ++ ">"

end Nytrix.Infer
