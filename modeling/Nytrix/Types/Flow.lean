import Nytrix.Types.Hm

/-! Types of variables along the text of a function, and how the function runs. -/

namespace Nytrix.Types

/-- The sizes that a literal of an integer may state. -/
inductive IntHint where
  | none | i8 | i16 | i32 | i64 | i128 | u8 | u16 | u32 | u64 | u128
  deriving DecidableEq

/-- The sizes that a literal of a float may state. -/
inductive FloatHint where
  | none | f32 | f64 | f128
  deriving DecidableEq

/-- A literal, as far as its type depends on it. -/
inductive Literal where
  | nil
  | bool
  | str
  | int (hint : IntHint)
  | float (hint : FloatHint)
  deriving DecidableEq

/-- The name of the type of a literal. -/
def tpLiteralType : Literal → Name
  | .bool => nm "bool"
  | .str => nm "str"
  | .float .f32 => nm "f32"
  | .float .f128 => nm "f128"
  | .float _ => nm "f64"
  | .nil => nm "nil"
  | .int .i8 => nm "i8"
  | .int .i16 => nm "i16"
  | .int .i32 => nm "i32"
  | .int .i64 => nm "i64"
  | .int .i128 => nm "i128"
  | .int .u8 => nm "u8"
  | .int .u16 => nm "u16"
  | .int .u32 => nm "u32"
  | .int .u64 => nm "u64"
  | .int .u128 => nm "u128"
  | .int .none => nm "int"

/-- The kinds of the values of a running program. -/
inductive RtKind where
  | nil | bool | int | float | str | list | tuple | set | dict | ptr | fn
  deriving DecidableEq

/-- What a kind of values is called. -/
def RtKind.name : RtKind → Name
  | .nil => nm "nil"
  | .bool => nm "bool"
  | .int => nm "int"
  | .float => nm "f64"
  | .str => nm "str"
  | .list => nm "list"
  | .tuple => nm "tuple"
  | .set => nm "set"
  | .dict => nm "dict"
  | .ptr => nm "ptr"
  | .fn => nm "fnptr"

/-- The kind of the value of a literal. -/
def Literal.kind : Literal → RtKind
  | .nil => .nil
  | .bool => .bool
  | .str => .str
  | .int _ => .int
  | .float _ => .float

/-- An expression: a literal or a variable of the function. -/
inductive FlowExpr where
  | lit (l : Literal)
  | ident (name : Name)
  deriving DecidableEq

/--
A statement that declares or sets variables.

The statement for a deletion is one without expressions.
-/
structure VarStmt where
  names : List Name
  types : List (Option Name)
  exprs : List FlowExpr
  isDecl : Bool
  isDestructure : Bool
  deriving DecidableEq

/--
A statement of the body of a function, where `null` stands for one that is not there.

A block is a sequence of statements, and the arms of a match are a sequence of arms that the default
statement ends.
-/
inductive FlowStmt where
  | null
  | var (v : VarStmt)
  | seq (first rest : FlowStmt)
  | block (isTransparent : Bool) (body : FlowStmt)
  | ifs (init : FlowStmt) (test : FlowExpr) (conseq alt : FlowStmt)
  | whiles (init : FlowStmt) (test : FlowExpr) (body update : FlowStmt)
  | matching (test : FlowExpr) (arms : FlowStmt)
  | arm (guard : Option FlowExpr) (conseq rest : FlowStmt)
  deriving DecidableEq

/-- The environment of inference: types of names, of which a later one counts. -/
abbrev HmEnv := List (Name × Nat)

/-- Sets the type of the first entry for a name, if there is one. -/
def setFirst (name : Name) (r : Nat) : HmEnv → Option HmEnv
  | [] => none
  | entry :: env =>
    if entry.1 = name then some ((name, r) :: env)
    else (setFirst name r env).map (entry :: ·)

/-- Sets the type of a name: of its last entry, or of a new one. -/
def hmEnvSet (env : HmEnv) (name : Name) (r : Nat) : HmEnv :=
  if name = [] then env
  else
    match setFirst name r env.reverse with
    | some entries => entries.reverse
    | none => env ++ [(name, r)]

/-- The type of a name: that of its last entry. -/
def hmEnvGet (env : HmEnv) (name : Name) : Option Nat :=
  (env.reverse.find? fun entry => entry.1 = name).map Prod.snd

/-- What inference has recorded at a place in the text. -/
structure Recorded where
  hm : Hm
  env : HmEnv
  deriving DecidableEq

/-- Makes a type node. -/
def hmNew (hm : Hm) (s : Shape) : Nat × Hm := (hm.nodes.length, hm.alloc s)

/-- Makes the type of a name. -/
def hmName (hm : Hm) (name : Name) : Nat × Hm :=
  hmNew hm (.name (if name = [] then nm "any" else name))

/-- Where the first comma that is not between angle brackets is. -/
def hmFindTopComma : Name → Int → Option Nat
  | [], _ => none
  | c :: rest, depth =>
    if c = ch '<' then (hmFindTopComma rest (depth + 1)).map (· + 1)
    else if c = ch '>' then (hmFindTopComma rest (depth - 1)).map (· + 1)
    else if c = ch ',' ∧ depth = 0 then some 0
    else (hmFindTopComma rest depth).map (· + 1)

/-- A text without the blanks at its beginning. -/
def skipBlanks (raw : Name) : Name := raw.dropWhile fun c => c = ch ' ' || c = ch '\t'

/-- A kind of collections that has one part, by its name. -/
def boxNamed (base : Name) : Option Box :=
  if base = nm "list" then some .list
  else if base = nm "set" then some .set
  else if base = nm "tuple" then some .tuple
  else none

/-- Makes the type that a text stands for; parts of a text are shorter, so that the depth suffices. -/
def parseTypeNameAt (selfName : Name) : Nat → Hm → Name → Nat × Hm
  | 0, hm, _ => hmNew hm (.var none)
  | depth + 1, hm, text =>
    if text = [] then hmNew hm (.var none)
    else
      let raw := skipBlanks text
      let part (hm : Hm) (inner : Name) := parseTypeNameAt selfName depth hm inner
      if raw = nm "self" ∧ selfName ≠ [] then hmName hm selfName
      else if raw.head? = some (ch '?') then
        let (a, hm) := part hm raw.tail
        hmNew hm (.nullable (some a))
      else if raw.head? = some (ch '*') then
        let (a, hm) := part hm raw.tail
        hmNew hm (.box .ptr (some a))
      else if ¬ raw.contains (ch '<') then
        match boxNamed raw with
        | some kind =>
          let (a, hm) := hmNew hm (.var none)
          hmNew hm (.box kind (some a))
        | none =>
          if raw = nm "dict" then
            let (a, hm) := hmNew hm (.var none)
            let (b, hm) := hmNew hm (.var none)
            hmNew hm (.dict (some a) (some b))
          else hmName hm raw
      else
        let before := raw.takeWhile (· ≠ ch '<')
        let behind := raw.drop (before.length + 1)
        if ¬ behind.contains (ch '>') then hmName hm raw
        else
          let inside := trimBlanks (behind.reverse.dropWhile (· ≠ ch '>')).tail.reverse
          let base := trimBlanks before
          match boxNamed base with
          | some kind =>
            let (a, hm) := part hm inside
            hmNew hm (.box kind (some a))
          | none =>
            if base = nm "dict" then
              match hmFindTopComma inside 0 with
              | some comma =>
                let (a, hm) := part hm (trimBlanks (inside.take comma))
                let (b, hm) := part hm (trimBlanks (inside.drop (comma + 1)))
                hmNew hm (.dict (some a) (some b))
              | none =>
                let (a, hm) := hmNew hm .any
                let (b, hm) := hmNew hm .any
                hmNew hm (.dict (some a) (some b))
            else hmName hm raw

/-- Makes the type that a text stands for. -/
def hmParseTypeName (hm : Hm) (raw selfName : Name) : Nat × Hm :=
  parseTypeNameAt selfName (raw.length + 1) hm raw

/-- Infers the type of an expression, which may not be there. -/
def hmInferExpr (r : Recorded) : Option FlowExpr → Nat × Recorded
  | none => (r.hm.nodes.length, { r with hm := r.hm.alloc .any })
  | some (.lit l) => (r.hm.nodes.length, { r with hm := r.hm.alloc (.name (tpLiteralType l)) })
  | some (.ident name) =>
    match hmEnvGet r.env name with
    | some t => (t, r)
    | none => (r.hm.nodes.length, { r with hm := r.hm.alloc .any })

/-- What is recorded once an expression has been looked at. -/
def afterExpr (r : Recorded) (e : Option FlowExpr) : Recorded := (hmInferExpr r e).2

/-- One of the names of a statement with the type and the expression in its place. -/
structure Binding where
  name : Name
  decl : Option Name
  init : Option FlowExpr
  deriving DecidableEq

/-- The names of a statement with their types and expressions. -/
def VarStmt.bindings (v : VarStmt) : List Binding :=
  v.names.mapIdx fun i name => ⟨name, (v.types[i]?).join, v.exprs[i]?⟩

/-- The type of the expression of a name, or a new variable. -/
def initType (r : Recorded) (init : Option FlowExpr) : Nat × Recorded :=
  match init with
  | some e => hmInferExpr r (some e)
  | none => (r.hm.nodes.length, { r with hm := r.hm.alloc (.var none) })

section Infer

variable (depth : Nat) (selfName : Name)

/-- Records the type of a name: the stated one, with which that of the expression is unified. -/
def inferBinding (r : Recorded) (b : Binding) : Option Recorded :=
  let (it, r) := initType r b.init
  match b.decl with
  | none => some { r with env := hmEnvSet r.env b.name it }
  | some decl =>
    if decl = [] then some { r with env := hmEnvSet r.env b.name it }
    else
      let (final, hm) := hmParseTypeName r.hm decl selfName
      (hmUnify (some (nm "variable declaration")) depth hm (some final) (some it)).map fun out =>
        ⟨out.2, hmEnvSet r.env b.name final⟩

/-- Records the types of names one after the other. -/
def inferBindings : List Binding → Recorded → Option Recorded
  | [], r => some r
  | b :: bs, r => (inferBinding depth selfName r b).bind (inferBindings bs)

/-- Goes through a statement in the order of the text; nothing when the depth does not suffice. -/
def hmInferStmt : FlowStmt → Recorded → Option Recorded
  | .null, r => some r
  | .var v, r => inferBindings depth selfName v.bindings r
  | .seq first rest, r => (hmInferStmt first r).bind (hmInferStmt rest)
  | .block _ body, r => hmInferStmt body r
  | .ifs init test conseq alt, r =>
    (hmInferStmt init r).bind fun r =>
      (hmInferStmt conseq (afterExpr r (some test))).bind (hmInferStmt alt)
  | .whiles init test body update, r =>
    (hmInferStmt init r).bind fun r =>
      (hmInferStmt body (afterExpr r (some test))).bind (hmInferStmt update)
  | .matching test arms, r => hmInferStmt arms (afterExpr r (some test))
  | .arm guard conseq rest, r =>
    -- an arm has an environment of its own, and shares the nodes
    (hmInferStmt conseq (afterExpr r guard)).bind fun inner =>
      hmInferStmt rest ⟨inner.hm, r.env⟩

end Infer

/-- The variables of a running function, those of the innermost block first. -/
abbrev Scopes := List (List (Name × RtKind))

/-- The kind of the value of a variable. -/
def Scopes.get : Scopes → Name → Option RtKind
  | [], _ => none
  | frame :: scopes, name =>
    match frame.find? fun entry => entry.1 = name with
    | some entry => some entry.2
    | none => Scopes.get scopes name

/-- Sets a variable where it is. -/
def Scopes.set : Scopes → Name → RtKind → Scopes
  | [], _, _ => []
  | frame :: scopes, name, kind =>
    if frame.any fun entry => entry.1 = name then
      frame.map (fun entry => if entry.1 = name then (name, kind) else entry) :: scopes
    else frame :: Scopes.set scopes name kind

/-- Makes a variable of the innermost block. -/
def Scopes.declare (scopes : Scopes) (name : Name) (kind : RtKind) : Scopes :=
  match scopes with
  | [] => [[(name, kind)]]
  | frame :: scopes => ((name, kind) :: frame) :: scopes

/-- The kind of the value of an expression. -/
def evalExpr (scopes : Scopes) : FlowExpr → Option RtKind
  | .lit l => some l.kind
  | .ident name => scopes.get name

/-- Where the value of a name comes from. -/
inductive ValueSource where
  | given (kind : RtKind)
  | expr (e : FlowExpr)

/-- The value from a source. -/
def ValueSource.eval (scopes : Scopes) : ValueSource → Option RtKind
  | .given kind => some kind
  | .expr e => evalExpr scopes e

/--
Sets the names of a statement one after the other.

A variable that is declared is made before its value is there; what it holds until then is left
open.
-/
def runBindings (isDecl : Bool) : List (Name × RtKind × ValueSource) → Scopes → Option Scopes
  | [], scopes => some scopes
  | (name, unset, source) :: rest, scopes =>
    let scopes :=
      if isDecl || (scopes.get name).isNone then scopes.declare name unset else scopes
    (source.eval scopes).bind fun kind => runBindings isDecl rest (scopes.set name kind)

/--
Where the values of the names of a statement come from.

Several values are assigned at once, and declared one after the other; one value is that of all the
names; without a value a name gets nil. The elements of what is taken apart are left open.
-/
def VarStmt.sources (v : VarStmt) (elements : List RtKind) (scopes : Scopes) :
    Option (List ValueSource) :=
  if v.isDestructure then some (elements.map .given)
  else if v.names.length = v.exprs.length then
    if !v.isDecl && 1 < v.names.length then
      (v.exprs.mapM (evalExpr scopes)).map (List.map .given)
    else some (v.exprs.map .expr)
  else
    match v.exprs with
    | [] => some (v.names.map fun _ => .given .nil)
    | e :: _ => (evalExpr scopes e).map fun kind => v.names.map fun _ => .given kind

/-- Runs a statement that sets variables; nothing if it names a variable that is not there. -/
def runVar (v : VarStmt) (unset elements : List RtKind) (scopes : Scopes) : Option Scopes :=
  (v.sources elements scopes).bind fun sources =>
    runBindings v.isDecl (v.names.zip (unset.zip sources)) scopes

/-- What a running function has to do next. -/
inductive Item where
  | stmt (s : FlowStmt)
  | pass (s : FlowStmt)
  | leave
  | back (at₀ : Recorded) (scopes₀ : Scopes) (loop : FlowStmt)
  | rejoin (at₀ : Recorded) (scopes₀ : Scopes) (rest : FlowStmt)
  deriving DecidableEq

/-- A running function: what is recorded where it is in the text, what it does next, its variables. -/
structure Flow where
  recorded : Recorded
  todo : List Item
  scopes : Scopes
  deriving DecidableEq

section Steps

variable (depth : Nat) (selfName : Name)

/--
A step of a running function.

Which way a test goes is left open. Control that passes over a part of the text is at what inference
has recorded behind it, which it has inferred from what is before; control that goes back to a loop
is at what is recorded there; and behind a match what is recorded comes from the default statement.
-/
inductive FlowStep : Flow → Flow → Prop
  | null {r : Recorded} {k : List Item} {scopes : Scopes} :
    FlowStep ⟨r, .stmt .null :: k, scopes⟩ ⟨r, k, scopes⟩
  | var {r r' : Recorded} {k : List Item} {scopes scopes' : Scopes} {v : VarStmt}
      {unset elements : List RtKind} :
    v.names.length ≤ unset.length → (v.isDestructure = true → v.names.length ≤ elements.length) →
    runVar v unset elements scopes = some scopes' →
    hmInferStmt depth selfName (.var v) r = some r' →
    FlowStep ⟨r, .stmt (.var v) :: k, scopes⟩ ⟨r', k, scopes'⟩
  | seq {r : Recorded} {k : List Item} {scopes : Scopes} {first rest : FlowStmt} :
    FlowStep ⟨r, .stmt (.seq first rest) :: k, scopes⟩ ⟨r, .stmt first :: .stmt rest :: k, scopes⟩
  | flat {r : Recorded} {k : List Item} {scopes : Scopes} {body : FlowStmt} :
    FlowStep ⟨r, .stmt (.block true body) :: k, scopes⟩ ⟨r, .stmt body :: k, scopes⟩
  | enter {r : Recorded} {k : List Item} {scopes : Scopes} {body : FlowStmt} :
    FlowStep ⟨r, .stmt (.block false body) :: k, scopes⟩
      ⟨r, .stmt body :: .leave :: k, [] :: scopes⟩
  | ifInit {r : Recorded} {k : List Item} {scopes : Scopes} {init conseq alt : FlowStmt}
      {test : FlowExpr} : init ≠ .null →
    FlowStep ⟨r, .stmt (.ifs init test conseq alt) :: k, scopes⟩
      ⟨r, .stmt init :: .stmt (.ifs .null test conseq alt) :: .leave :: k, [] :: scopes⟩
  | ifTrue {r : Recorded} {k : List Item} {scopes : Scopes} {conseq alt : FlowStmt}
      {test : FlowExpr} :
    FlowStep ⟨r, .stmt (.ifs .null test conseq alt) :: k, scopes⟩
      ⟨afterExpr r (some test), .stmt conseq :: .pass alt :: k, scopes⟩
  | ifFalse {r : Recorded} {k : List Item} {scopes : Scopes} {conseq alt : FlowStmt}
      {test : FlowExpr} :
    FlowStep ⟨r, .stmt (.ifs .null test conseq alt) :: k, scopes⟩
      ⟨afterExpr r (some test), .pass conseq :: .stmt alt :: k, scopes⟩
  | whileInit {r : Recorded} {k : List Item} {scopes : Scopes} {init body update : FlowStmt}
      {test : FlowExpr} : init ≠ .null →
    FlowStep ⟨r, .stmt (.whiles init test body update) :: k, scopes⟩
      ⟨r, .stmt init :: .stmt (.whiles .null test body update) :: .leave :: k, [] :: scopes⟩
  | whileTrue {r : Recorded} {k : List Item} {scopes : Scopes} {body update : FlowStmt}
      {test : FlowExpr} :
    FlowStep ⟨r, .stmt (.whiles .null test body update) :: k, scopes⟩
      ⟨afterExpr r (some test), .stmt body :: .stmt update :: .leave ::
        .back r scopes (.whiles .null test body update) :: k, [] :: scopes⟩
  | whileFalse {r : Recorded} {k : List Item} {scopes : Scopes} {body update : FlowStmt}
      {test : FlowExpr} :
    FlowStep ⟨r, .stmt (.whiles .null test body update) :: k, scopes⟩
      ⟨afterExpr r (some test), .pass body :: .pass update :: k, scopes⟩
  | matching {r : Recorded} {k : List Item} {scopes : Scopes} {arms : FlowStmt} {test : FlowExpr} :
    FlowStep ⟨r, .stmt (.matching test arms) :: k, scopes⟩
      ⟨afterExpr r (some test), .stmt arms :: k, scopes⟩
  | armTaken {r inner : Recorded} {k : List Item} {scopes : Scopes} {conseq rest : FlowStmt}
      {guard : Option FlowExpr} :
    hmInferStmt depth selfName conseq (afterExpr r guard) = some inner →
    FlowStep ⟨r, .stmt (.arm guard conseq rest) :: k, scopes⟩
      ⟨afterExpr r guard, .stmt conseq :: .leave :: .rejoin ⟨inner.hm, r.env⟩ scopes rest :: k,
        [] :: scopes⟩
  | armPassed {r inner : Recorded} {k : List Item} {scopes : Scopes} {conseq rest : FlowStmt}
      {guard : Option FlowExpr} :
    hmInferStmt depth selfName conseq (afterExpr r guard) = some inner →
    FlowStep ⟨r, .stmt (.arm guard conseq rest) :: k, scopes⟩
      ⟨⟨inner.hm, r.env⟩, .stmt rest :: k, scopes⟩
  | pass {r r' : Recorded} {k : List Item} {scopes : Scopes} {s : FlowStmt} :
    hmInferStmt depth selfName s r = some r' →
    FlowStep ⟨r, .pass s :: k, scopes⟩ ⟨r', k, scopes⟩
  | leave {r : Recorded} {k : List Item} {frame : List (Name × RtKind)} {scopes : Scopes} :
    FlowStep ⟨r, .leave :: k, frame :: scopes⟩ ⟨r, k, scopes⟩
  | back {r at₀ : Recorded} {k : List Item} {scopes₀ scopes : Scopes} {loop : FlowStmt} :
    FlowStep ⟨r, .back at₀ scopes₀ loop :: k, scopes⟩ ⟨at₀, .stmt loop :: k, scopes⟩
  | rejoin {r r' at₀ : Recorded} {k : List Item} {scopes₀ scopes : Scopes} {rest : FlowStmt} :
    hmInferStmt depth selfName rest at₀ = some r' →
    FlowStep ⟨r, .rejoin at₀ scopes₀ rest :: k, scopes⟩ ⟨r', k, scopes⟩

end Steps

end Nytrix.Types
