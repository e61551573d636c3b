import Nytrix.Lower.Builder

/-! The lowering of expressions. -/

namespace Nytrix.Lower

open Nytrix.Nir

/-- The integer operation of a binary operator. -/
def binop (op : String) : Option Op :=
  match op with
  | "+" => some .addI64
  | "-" => some .subI64
  | "*" => some .mulI64
  | "/" => some .divI64
  | "%" => some .modI64
  | "&" => some .andI64
  | "|" => some .orI64
  | "^^" => some .xorI64
  | "<<" => some .shlI64
  | ">>" => some .sarI64
  | _ => none

/-- The predicate of a comparison operator. -/
def cmpOf (op : String) : Option Cmp :=
  match op with
  | "==" => some .eq
  | "!=" => some .ne
  | "<" => some .lt
  | "<=" => some .le
  | ">" => some .gt
  | ">=" => some .ge
  | _ => none

/-- Whether the program declares this function to return a double. -/
def callIsF64 (env : Env) (name : String) : Bool :=
  (findUserFunction env name).any fun sig => typeNameIsF64 sig.returnType

/-- Whether the program declares this function to return a single. -/
def callIsF32 (env : Env) (name : String) : Bool :=
  (findUserFunction env name).any fun sig => typeNameIsF32 sig.returnType

/-- Whether the lowering takes an expression for a double. -/
def exprIsF64 (env : Env) (locals : List Local) : Expr → Bool
  | .literal (.float _) => true
  | .ident name => (findLocal locals name).any Local.isF64
  | .binary _ left right => exprIsF64 env locals left || exprIsF64 env locals right
  | .unary _ right => exprIsF64 env locals right
  | .call (.ident name) _ => callIsF64 env name
  | _ => false

/-- Whether the lowering takes an expression for a single; no literal is one. -/
def exprIsF32 (env : Env) (locals : List Local) : Expr → Bool
  | .ident name => (findLocal locals name).any Local.isF32
  | .binary _ left right => exprIsF32 env locals left || exprIsF32 env locals right
  | .unary _ right => exprIsF32 env locals right
  | .call (.ident name) _ => callIsF32 env name
  | _ => false

/-- A literal. -/
def lowerLiteral : Literal → LowerM Int
  | .bool value => emitConst (if value then 1 else 0)
  | .float bits => emitConstF64 bits
  | .nil => emitConst 0
  | .str => fail "native NYIR lower: only int/bool/f64/nil literals are supported"
  | .int value => emitConst value

/-- A name: the local it is bound to, or else a linker symbol. -/
def lowerIdent (name : String) : LowerM Int := do
  match findLocal (← get).locals name with
  | none => emitAddrSymbol name
  | some l => emitValue (loadInst l.slot (some l.name))

/-- A unary operator on a value. -/
def lowerUnary (op : String) (value : Int) : LowerM Int :=
  match op with
  | "+" => pure value
  | "-" => do
    let zero ← emitConst 0
    emitValue (binaryInst .subI64 zero value .eq)
  | "!" => do
    let zero ← emitConst 0
    emitCmp value zero .eq
  | "~" => do
    let mask ← emitConst (-1)
    emitValue (binaryInst .xorI64 value mask .eq)
  | op => fail ("native NYIR lower: unsupported unary operator '" ++ op ++ "'")

/-- The double operation of one of the four operators that have one. -/
def floatOp64 (op : String) : Option Op :=
  match op with
  | "+" => some .addF64
  | "-" => some .subF64
  | "*" => some .mulF64
  | "/" => some .divF64
  | _ => none

/-- The single operation of one of the four operators that have one. -/
def floatOp32 (op : String) : Option Op :=
  match op with
  | "+" => some .addF32
  | "-" => some .subF32
  | "*" => some .mulF32
  | "/" => some .divF32
  | _ => none

/-- What the operands of an operation are converted to. -/
inductive Width where
  | i64 | f64 | f32
  deriving DecidableEq

/-- The opcode and operand width of an operator, from what its operands are taken for. -/
def chooseOp (op : String) (int : Op) (isCmp isF64 isF32 : Bool) : Op × Width :=
  let single := !isF64 && isF32
  if isCmp then
    if isF64 then (.cmpF64, .f64) else if single then (.cmpF32, .f32) else (.cmpI64, .i64)
  else if single then ((floatOp32 op).map fun op => (op, Width.f32)).getD (int, .i64)
  else if isF64 then ((floatOp64 op).map fun op => (op, Width.f64)).getD (int, .i64)
  else (int, .i64)

/-- Converts an operand that is not taken for a float of the wanted width already. -/
def convertOperand (width : Width) (isF64 isF32 : Bool) (value : Int) : LowerM Int :=
  match width with
  | .i64 => pure value
  | .f64 => if isF64 then pure value else emitConvert .i64ToF64 value
  | .f32 => if isF32 then pure value else emitConvert .i64ToF32 value

/-- A binary operator or a comparison, given how its operands are lowered. -/
def lowerBinary (env : Env) (op : String) (left right : Expr) (lowerLeft lowerRight : LowerM Int) :
    LowerM Int :=
  match cmpOf op, binop op with
  | none, none => fail ("native NYIR lower: unsupported binary operator '" ++ op ++ "'")
  | cmp, int => do
    -- No expression changes the locals, so the flags are the same after the operands.
    let locals := (← get).locals
    let left64 := exprIsF64 env locals left
    let right64 := exprIsF64 env locals right
    let left32 := exprIsF32 env locals left
    let right32 := exprIsF32 env locals right
    let (code, width) :=
      chooseOp op (int.getD .nop) cmp.isSome (left64 || right64) (left32 || right32)
    let (a, rhs) ← both lowerLeft lowerRight
    let a ← convertOperand width left64 left32 a
    let rhs ← convertOperand width right64 right32 rhs
    emitValue (binaryInst code a rhs (cmp.getD .eq))

/-- Leaves a short-circuit operator early: to the true label for `or`, to the end for `and`. -/
def emitShortcut (isOr : Bool) (value : Int) (trueLabel endLabel : Nat) : LowerM Unit :=
  if isOr then emitBrIf value trueLabel else emitBrUnless value endLabel

/-- A short-circuit operator, given how its operands are lowered. -/
def lowerLogical (lowerLeft lowerRight : LowerM Int) (isOr : Bool) : LowerM Int := do
  let resultSlot ← tempSlot
  let zero ← emitConst 0
  let one ← emitConst 1
  let trueLabel ← freshLabel
  let endLabel ← freshLabel
  storeLocalValue resultSlot zero
  let lhs ← lowerLeft
  emitShortcut isOr lhs trueLabel endLabel
  let rhs ← lowerRight
  emitShortcut isOr rhs trueLabel endLabel
  onlyIf isOr (emitBr endLabel)
  emitLabel trueLabel
  storeLocalValue resultSlot one
  emitLabel endLabel
  loadLocalValue resultSlot

/-- A conditional expression, given how its parts are lowered. -/
def lowerTernary (lowerCond lowerTrue lowerFalse : LowerM Int) : LowerM Int := do
  let resultSlot ← tempSlot
  let elseLabel ← freshLabel
  let endLabel ← freshLabel
  let cond ← lowerCond
  emitBrUnless cond elseLabel
  let trueVal ← lowerTrue
  storeLocalValue resultSlot trueVal
  emitBr endLabel
  emitLabel elseLabel
  let falseVal ← lowerFalse
  storeLocalValue resultSlot falseVal
  emitLabel endLabel
  loadLocalValue resultSlot

/-- An argument: its name and expression, how it is lowered, and how its pointer is when it is a
dereference. -/
structure Arg where
  name : Option String
  val : Expr
  lower : LowerM Int
  lowerTarget : LowerM Int

/-- A call instruction with these arguments. -/
def callInst (values : List Int) (flags : BitVec 32) (symbol : String)
    (argSizes : Option (List (BitVec 32))) : Inst where
  op := .call
  dst := -1
  a := values.getD 0 (-1)
  b := values.getD 1 (-1)
  c := values.getD 2 (-1)
  d := values.getD 3 (-1)
  e := values.getD 4 (-1)
  f := values.getD 5 (-1)
  imm := BitVec.ofNat 64 values.length
  flags := flags
  symbol := some symbol
  extraArgs := values.drop 6
  argSizes := argSizes

/-- The print builtin, which tags its integer for the runtime. -/
def lowerPrint (env : Env) : List Arg → LowerM Int
  | [{ name := none, val, lower, .. }] => do
    let locals := (← get).locals
    if exprIsF64 env locals val || exprIsF32 env locals val then
      fail "native NYIR lower: print currently supports integer arguments only"
    else
      let raw ← lower
      let tagged ← emitAddI64 raw raw
      let _ ← emitValue (callInst [tagged] flagExtern "rt_print_int" none)
      let _ ← emitValue (callInst [] flagExtern "rt_print_newline" none)
      emitConst 0
  | _ => fail "native NYIR lower: print currently requires one positional integer argument"

/-- The address builtins, on a dereference, a local or a symbol. -/
def lowerAddrOf (leaf : String) : List Arg → LowerM Int
  | [{ name := none, val, lowerTarget, .. }] =>
    match val with
    | .missing => fail ("native NYIR lower: " ++ leaf ++ " requires one addressable expression")
    | .deref _ => lowerTarget
    | .ident name => do
      match findLocal (← get).locals name with
      | none => emitAddrSymbol name
      | some l => emitAddrLocal l.slot name
    | val => fail ("native NYIR lower: " ++ leaf ++ " supports local and dereferenced pointer " ++
        "lvalues, not expression kind " ++ toString val.kind)
  | _ => fail ("native NYIR lower: " ++ leaf ++ " requires one addressable expression")

/-- An address moved by an offset, when there is one. -/
def addOffset (addr : Int) (offset : Option Arg) : LowerM Int :=
  match offset with
  | none => pure addr
  | some arg => do
    let off ← arg.lower
    emitAddI64 addr off

/-- The load builtins. -/
def lowerLoad64 (args : List Arg) : LowerM Int :=
  match args with
  | ptr :: rest =>
    if 1 < rest.length || args.any fun arg => arg.name.isSome then
      fail "native NYIR lower: load64_i/load64_h require positional pointer and optional offset"
    else do
      let addr ← ptr.lower
      let addr ← addOffset addr rest.head?
      emitLoadI64 addr
  | [] => fail "native NYIR lower: load64_i/load64_h require positional pointer and optional offset"

/-- The store builtins, whose value stands last in the intrinsic order and second otherwise. -/
def lowerStore64 (intrinsicOrder : Bool) (args : List Arg) : LowerM Int :=
  let refuse : LowerM Int := fail
    ("native NYIR lower: store64_i/store64_h require positional pointer, value, and optional " ++
      "offset")
  if args.any fun arg => arg.name.isSome then refuse
  else match args, intrinsicOrder with
    | [ptr, offset, value], true => lowerStoreAt ptr value (some offset)
    | [ptr, value], false => lowerStoreAt ptr value none
    | [ptr, value, offset], false => lowerStoreAt ptr value (some offset)
    | _, _ => refuse
where
  /-- Address and value first, then the offset. -/
  lowerStoreAt (ptr value : Arg) (offset : Option Arg) : LowerM Int := do
    let (addr, v) ← both ptr.lower value.lower
    let addr ← addOffset addr offset
    emitStoreI64 addr v
    emitConst 0

/-- Converts an argument to the float type its parameter is declared with. -/
def convertArg (param : Option Param) (isF64 isF32 : Bool) (value : Int) : LowerM Int :=
  match param with
  | none => pure value
  | some param =>
    if typeNameIsF32 param.type && !isF32 then
      emitConvert (if isF64 then .f64ToF32 else .i64ToF32) value
    else if typeNameIsF64 param.type && !isF64 then
      emitConvert (if isF32 then .f32ToF64 else .i64ToF64) value
    else pure value

/-- The arguments of a direct call, from left to right, against the parameters they are for. -/
def lowerCallArgs (env : Env) (params : List Param) : List Arg → LowerM (List Int)
  | [] => pure []
  | arg :: rest => do
    if arg.name.isSome then fail "native NYIR lower: named call args are not supported"
    else
      let locals := (← get).locals
      let value ← arg.lower
      let value ← convertArg params.head? (exprIsF64 env locals arg.val)
        (exprIsF32 env locals arg.val) value
      let values ← lowerCallArgs env params.tail rest
      return value :: values

/-- Whether an aggregate argument of this metadata cannot be passed in registers. -/
def argUnrepresented (packed : BitVec 32) : Bool :=
  packed ≠ 0 && decide (argAggSize packed ≤ 16) &&
    (argAggClass packed false = argClassUnsupported || argAggClass packed false = 0)

/-- The aggregate metadata of a call, absent when no parameter is an aggregate. -/
def callArgSizes (ext : ExternEntry) (argc : Nat) (hasSret : Bool) : Option (List (BitVec 32)) :=
  if (List.range ext.paramCount).any fun i => ext.argAggregateSizes.getD i 0 ≠ 0 then
    some ((if hasSret then [0] else []) ++ (List.range argc).map fun i =>
      if i < ext.paramCount then ext.argAggregateSizes.getD i 0 else 0)
  else none

/-- Whether the name of a call means one of the C allocator's functions. -/
def builtinCCall (leaf : String) : Option String :=
  if leaf = "realloc" || leaf = "__realloc" then some "realloc"
  else if leaf = "malloc" || leaf = "__malloc" then some "malloc"
  else if leaf = "free" || leaf = "__free" then some "free"
  else none

/-- The return-type flag of a call. -/
def retFlag (env : Env) (name : String) : BitVec 32 :=
  if callIsF64 env name then flagRetF64
  else if callIsF32 env name then flagRetF32
  else 0

/-- The second return register of an aggregate, when its class can be captured. -/
def captureSelector (ext : ExternEntry) : Option I64 :=
  match ext.retClass2 with
  | .integer => some (if ext.retClass = .integer then 0 else 1)
  | .sse => some (if ext.retClass = .sse then 3 else 2)
  | _ => none

/-- Captures a return register. -/
def captureRet (selector : I64) : LowerM Int :=
  emitValue { op := .captureRet, dst := -1, a := -1, b := -1, c := -1, imm := selector }

/-- The second half of an aggregate return, when it has one. -/
def captureSecond (ext : ExternEntry) : LowerM (Option Int) :=
  match ext.retClass2 with
  | .none => pure none
  | _ => match captureSelector ext with
    | none => fail ("native NYIR lower: secondary SysV aggregate return class is not " ++
        "represented yet")
    | some selector => do
      let second ← captureRet selector
      return some second

/-- Stores the second half of an aggregate return behind the first. -/
def storeSecond (ptr : Int) : Option Int → LowerM Unit
  | none => pure ()
  | some second => do
    let off ← emitConst 8
    let addr ← emitAddI64 ptr off
    emitStoreI64 addr second

/-- Stores an aggregate that came back in registers. -/
def storeAggregate (ext : ExternEntry) (ptr call : Int) : LowerM Unit :=
  if ext.retClass = .sse then
    -- The integer register is captured before the floating one when it is the second.
    if ext.retClass2 = .integer then do
      let second ← captureRet 1
      let primary ← captureRet 2
      emitStoreI64 ptr primary
      storeSecond ptr (some second)
    else do
      let primary ← captureRet 2
      let second ← captureSecond ext
      emitStoreI64 ptr primary
      storeSecond ptr second
  else do
    let second ← captureSecond ext
    emitStoreI64 ptr call
    storeSecond ptr second

/-- A call to a foreign function, with the memory for an aggregate it returns. -/
def lowerExternCall (env : Env) (name : String) (ext : ExternEntry) (values : List Int) :
    LowerM Int :=
  let hasAggregate := ext.retAggregateSize ≠ 0
  let hasSret := hasAggregate && ext.retClass = .memory
  if hasAggregate && !hasSret && ext.retClass ≠ .integer && ext.retClass ≠ .sse then
    fail "native NYIR lower: SysV aggregate return class is not represented yet"
  else if (List.range (min ext.paramCount values.length)).any fun i =>
      argUnrepresented (ext.argAggregateSizes.getD i 0) then
    fail "native NYIR lower: SysV register aggregate argument is not represented yet"
  else
    let sizes := callArgSizes ext values.length hasSret
    let flags := flagExtern ||| retFlag env name
    if !hasAggregate then emitValue (callInst values flags ext.cSymbol sizes)
    else do
      let ptr ← emitValue { op := .alloca, dst := -1, a := -1, b := -1, c := -1,
                            imm := ext.retAggregateSize.zeroExtend 64 }
      if hasSret then
        if callMaxArgs < values.length + 1 then
          fail "native NYIR lower: call exceeds maximum args with sret"
        else
          let _ ← emitValue (callInst (ptr :: values) flags ext.cSymbol sizes)
          return ptr
      else
        let flags := if ext.retClass = .sse then flags ||| flagRetF64 else flags
        let call ← emitValue (callInst values flags ext.cSymbol sizes)
        storeAggregate ext ptr call
        return ptr

/-- A call that is not a memory or print builtin. -/
def lowerDirectCall (env : Env) (name : String) (args : List Arg) : LowerM Int :=
  if callMaxArgs < args.length then
    fail "native NYIR lower: call exceeds the maximum supported argument count (64)"
  else do
    let params := ((findUserFunction env name).map Signature.params).getD []
    let values ← lowerCallArgs env params args
    match externTableLookup env name with
    | some ext => lowerExternCall env name ext values
    | none => match builtinCCall (leafName name) with
      | some symbol => emitValue (callInst values (flagExtern ||| retFlag env name) symbol none)
      | none => emitValue (callInst values (retFlag env name) name none)

/-- A call, by the last part of the name it goes to. -/
def lowerCall (env : Env) (name : String) (args : List Arg) : LowerM Int :=
  let leaf := leafName name
  if leaf = "print" && (findUserFunction env name).isNone then lowerPrint env args
  else if leaf = "addr_of" || leaf = "borrow" then lowerAddrOf leaf args
  else if leaf = "load64_i" || leaf = "load64_h" || leaf = "__load64_h" || leaf = "__load64_idx"
  then lowerLoad64 args
  else if leaf = "store64_i" || leaf = "store64_h" then lowerStore64 false args
  else if leaf = "__store64_h" || leaf = "__store64_idx" then lowerStore64 true args
  else lowerDirectCall env name args

/-- The length a qualified name may not reach. -/
def maxQualified : Nat := 512

/-- A call of an expression, which must be a name. -/
def lowerCallee (env : Env) (callee : Expr) (args : List Arg) : LowerM Int :=
  match callee with
  | .ident name => lowerCall env name args
  | _ => fail "native NYIR lower: only direct calls are supported"

/-- A member call, which means the call of a qualified name. -/
def lowerMember (env : Env) (target : Expr) (name : String) (args : List Arg) : LowerM Int :=
  match target with
  | .ident space =>
    let qualified := space ++ "." ++ name
    if maxQualified ≤ qualified.utf8ByteSize then
      fail "native NYIR lower: qualified call name is too long"
    else lowerCall env qualified args
  | _ => fail "native NYIR lower: only namespace-qualified member calls are supported"

mutual

/-- The lowering of an expression to the value that holds it. -/
def lowerExpr (env : Env) : Expr → LowerM Int
  | .missing => fail "native NYIR lower: missing expression"
  | .literal lit => lowerLiteral lit
  | .ident name => lowerIdent name
  | .unary op right =>
    if right.isMissing then fail "native NYIR lower: malformed unary"
    else do
      let value ← lowerExpr env right
      lowerUnary op value
  | .binary op left right =>
    lowerBinary env op left right (lowerExpr env left) (lowerExpr env right)
  | .logical op left right =>
    if op ≠ "&&" && op ≠ "||" then
      fail ("native NYIR lower: unsupported logical operator '" ++ op ++ "'")
    else lowerLogical (lowerExpr env left) (lowerExpr env right) (op = "||")
  | .ternary cond trueExpr falseExpr =>
    if cond.isMissing || trueExpr.isMissing || falseExpr.isMissing then
      fail "native NYIR lower: malformed ternary expression"
    else lowerTernary (lowerExpr env cond) (lowerExpr env trueExpr) (lowerExpr env falseExpr)
  | .call callee args => lowerCallee env callee (lowerArgs env args)
  | .memcall target name args => lowerMember env target name (lowerArgs env args)
  | .deref target => do
    let addr ← lowerExpr env target
    emitLoadI64 addr
  | .other kind => fail ("native NYIR lower: expression kind " ++ toString kind ++
      " is not in shared NYIR yet")

/-- How each argument of a call is lowered. -/
def lowerArgs (env : Env) : Args → List Arg
  | .nil => []
  | .cons name val rest =>
    { name := name, val := val, lower := lowerExpr env val, lowerTarget := lowerPointer env val } ::
      lowerArgs env rest

/-- How the pointer of a dereference is lowered. -/
def lowerPointer (env : Env) : Expr → LowerM Int
  | .deref target => lowerExpr env target
  | _ => fail ""

end

end Nytrix.Lower
