import Mathlib.Data.List.Basic

/-! The trees of regular expressions, and the results of matching one at a place, the best first. -/

namespace Nytrix.Regex

/-- A text, as its bytes. -/
abbrev Text := List UInt8

section Trees

/-- The switches of an expression. -/
structure Flags where
  ignorecase : Bool
  multiline : Bool
  dotall : Bool
  deriving DecidableEq

/-- A category of bytes. -/
inductive Category where
  | digit
  | word
  | space
  deriving DecidableEq

/-- An item of a class: a byte, a range of bytes, or a category or what is outside of one. -/
inductive ClassItem where
  | ch (c : UInt8)
  | range (a b : UInt8)
  | cat (k : Category)
  | ncat (k : Category)
  deriving DecidableEq

/-- A condition on a place: `^`, `$`, `\A`, `\Z`, `\b` or `\B`. -/
inductive Anchor where
  | lineStart
  | lineEnd
  | textStart
  | textEnd
  | boundary
  | noBoundary
  deriving DecidableEq

/-- The tree of an expression; a repetition without a largest number has `none` for it. -/
inductive Node where
  | empty
  | lit (c : UInt8)
  | dot
  | cls (neg : Bool) (items : List ClassItem)
  | anchor (k : Anchor)
  | seq (xs : List Node)
  | alt (xs : List Node)
  | rep (child : Node) (min : Nat) (max : Option Nat) (greedy : Bool)
  | cap (idx : Nat) (child : Node)
  | look (child : Node) (neg : Bool)
  | lookbehind (child : Node) (neg : Bool)
  | backref (idx : Nat)

/-- The captures of a match, the whole match first; a group that has no part in it has `none`. -/
abbrev Caps := List (Option (Nat × Nat))

/-- A result of matching: the place it leads to, and its captures. -/
structure State where
  pos : Nat
  caps : Caps
  deriving DecidableEq

/-- A compiled expression. -/
structure Compiled where
  ast : Node
  flags : Flags
  groups : Nat
  names : List (Text × Nat)

end Trees

section Bytes

/-- A byte in lower case. -/
def lowerByte (c : UInt8) : UInt8 := if 65 ≤ c ∧ c ≤ 90 then c + 32 else c

/-- Whether two bytes are the same, as the switches have it. -/
def eqCh (a b : UInt8) (flags : Flags) : Bool :=
  if flags.ignorecase then lowerByte a = lowerByte b else a = b

/-- Whether a byte is a decimal digit. -/
def isDigit (c : UInt8) : Bool := 48 ≤ c && c ≤ 57

/-- Whether a byte is white space. -/
def isSpace (c : UInt8) : Bool :=
  c = 32 || c = 9 || c = 10 || c = 13 || c = 12 || c = 11

/-- Whether a byte is part of a word. -/
def isWord (c : UInt8) : Bool :=
  (48 ≤ c && c ≤ 57) || (65 ≤ c && c ≤ 90) || (97 ≤ c && c ≤ 122) || c = 95

/-- Whether a byte is of a category. -/
def classCatMatch (cat : Category) (c : UInt8) : Bool :=
  match cat with
  | .digit => isDigit c
  | .word => isWord c
  | .space => isSpace c

/-- Whether a byte is among those of an item. -/
def classItemMatch (item : ClassItem) (c : UInt8) (flags : Flags) : Bool :=
  match item with
  | .ch a => eqCh c a flags
  | .range a b =>
    if flags.ignorecase then lowerByte a ≤ lowerByte c && lowerByte c ≤ lowerByte b
    else a ≤ c && c ≤ b
  | .cat k => classCatMatch k c
  | .ncat k => !classCatMatch k c

/-- Whether a byte is among those of a class. -/
def classMatch (neg : Bool) (items : List ClassItem) (c : UInt8) (flags : Flags) : Bool :=
  let ok := items.any fun item => classItemMatch item c flags
  if neg then !ok else ok

/-- The part of a text between two places. -/
def slice (s : Text) (a b : Nat) : Text := (s.drop a).take (b - a)

end Bytes

section Places

/-- Whether there is a word on exactly one side of a place. -/
def wordBoundary (text : Text) (pos : Nat) : Bool :=
  let left := pos > 0 && text[pos - 1]?.any isWord
  let right := text[pos]?.any isWord
  left != right

/-- Whether a place meets a condition. -/
def anchorHolds (k : Anchor) (text : Text) (pos : Nat) (flags : Flags) : Bool :=
  match k with
  | .lineStart => pos = 0 || (flags.multiline && pos > 0 && text[pos - 1]? = some 10)
  | .lineEnd =>
    pos = text.length || (pos + 1 = text.length && text[pos]? = some 10) ||
      (flags.multiline && text[pos]? = some 10)
  | .textStart => pos = 0
  | .textEnd => pos = text.length || (pos + 1 = text.length && text[pos]? = some 10)
  | .boundary => wordBoundary text pos
  | .noBoundary => !wordBoundary text pos

/-- The result one byte further, if the byte at a place is right. -/
def matchByte (right : UInt8 → Bool) (text : Text) (pos : Nat) (caps : Caps) : List State :=
  if text[pos]?.any right then [⟨pos + 1, caps⟩] else []

/-- Sets a capture; groups before it that have none are filled up. -/
def capsSet (caps : Caps) (idx a b : Nat) : Caps :=
  (caps ++ List.replicate (idx + 1 - caps.length) none).set idx (some (a, b))

/-- Matches what a group has captured once more. -/
def backrefMatch (idx : Nat) (text : Text) (pos : Nat) (caps : Caps) (flags : Flags) :
    List State :=
  if idx = 0 then []
  else
    match caps[idx]?.join with
    | none => []
    | some (a, b) =>
      if b < a || text.length < pos + (b - a) then []
      else if (List.range (b - a)).all fun i =>
          eqCh (text.getD (a + i) 0) (text.getD (pos + i) 0) flags then
        [⟨pos + (b - a), caps⟩]
      else []

end Places

section Matching

mutual

/-- The results of matching a tree at a place; `fuel` is how much deeper calls may go. -/
def matchNode (fuel : Nat) (node : Node) (text : Text) (pos : Nat) (caps : Caps) (flags : Flags) :
    List State :=
  match fuel with
  | 0 => []
  | fuel + 1 =>
    match node with
    | .empty => [⟨pos, caps⟩]
    | .lit c => matchByte (fun b => eqCh b c flags) text pos caps
    | .dot => matchByte (fun b => flags.dotall || b != 10) text pos caps
    | .cls neg items => matchByte (fun b => classMatch neg items b flags) text pos caps
    | .anchor k => if anchorHolds k text pos flags then [⟨pos, caps⟩] else []
    | .seq xs => matchSeq fuel xs text pos caps flags
    | .alt xs => xs.flatMap fun x => matchNode fuel x text pos caps flags
    | .cap idx child =>
      (matchNode fuel child text pos caps flags).map fun st =>
        ⟨st.pos, capsSet st.caps idx pos st.pos⟩
    | .rep child min max greedy =>
      repeatCollect fuel child text ⟨pos, caps⟩ 0 min max greedy flags
    | .look child neg =>
      let ok := matchNode fuel child text pos caps flags != []
      if (if neg then !ok else ok) then [⟨pos, caps⟩] else []
    | .lookbehind child neg =>
      let ok := lookbehindOk fuel child text pos caps flags
      if (if neg then !ok else ok) then [⟨pos, caps⟩] else []
    | .backref idx => backrefMatch idx text pos caps flags
termination_by structural fuel

/-- The results of matching trees one after the other. -/
def matchSeq (fuel : Nat) (xs : List Node) (text : Text) (pos : Nat) (caps : Caps)
    (flags : Flags) : List State :=
  match fuel with
  | 0 => if xs = [] then [⟨pos, caps⟩] else []
  | fuel + 1 =>
    xs.foldl (fun states x =>
      states.flatMap fun st => matchNode fuel x text st.pos st.caps flags) [⟨pos, caps⟩]
termination_by structural fuel

/-- The results of matching a tree again and again; an iteration that does not move is dropped. -/
def repeatCollect (fuel : Nat) (child : Node) (text : Text) (st : State) (count min : Nat)
    (max : Option Nat) (greedy : Bool) (flags : Flags) : List State :=
  match fuel with
  | 0 => []
  | fuel + 1 =>
    let here := if min ≤ count then [st] else []
    let more :=
      if max.all (count < ·) then
        (matchNode fuel child text st.pos st.caps flags).flatMap fun ns =>
          if ns.pos ≠ st.pos then
            repeatCollect fuel child text ns (count + 1) min max greedy flags
          else []
      else []
    if greedy then more ++ here else here ++ more
termination_by structural fuel

/-- Whether a tree matches from some earlier place up to a place. -/
def lookbehindOk (fuel : Nat) (child : Node) (text : Text) (pos : Nat) (caps : Caps)
    (flags : Flags) : Bool :=
  match fuel with
  | 0 => false
  | fuel + 1 =>
    (List.range (pos + 1)).any fun start =>
      (matchNode fuel child text start caps flags).any fun st => st.pos = pos
termination_by structural fuel

end

/-- How deep calls may go. -/
def depthLimit : Nat := 10000

/-- A match: where it begins and ends, and its captures. -/
structure Match where
  start : Nat
  stop : Nat
  caps : Caps
  deriving DecidableEq

/-- The results of matching an expression at a place, the best first. -/
def results (rx : Compiled) (text : Text) (pos : Nat) : List State :=
  matchNode (depthLimit + 1) rx.ast text pos (List.replicate (rx.groups + 1) none) rx.flags

/-- The match of a result. -/
def makeMatch (pos : Nat) (st : State) : Match := ⟨pos, st.pos, capsSet st.caps 0 pos st.pos⟩

/-- The best match at a place. -/
def runAt (rx : Compiled) (text : Text) (pos : Nat) : Option Match :=
  (results rx text pos).head?.map (makeMatch pos)

end Matching

end Nytrix.Regex
