import Mathlib.Logic.Function.Iterate
import Nytrix.Nir.Ir

/-! Which values and locals the assembly backend takes for floats. -/

namespace Nytrix.Native

open Nytrix.Nir

/-- The size of the backend's tables. -/
def nirMaxSlots : Int := 4096

/-- Whether an index lies in the backend's tables. -/
def inSlots (v : Int) : Bool := decide (0 ≤ v) && decide (v < nirMaxSlots)

/-- Whether an opcode gives a double. -/
def opIsF64 (op : Op) : Bool :=
  op = .constF64 || op = .addF64 || op = .subF64 || op = .mulF64 || op = .divF64 ||
    op = .i64ToF64 || op = .f32ToF64

/-- Whether an opcode gives a single. -/
def opIsF32 (op : Op) : Bool :=
  op = .constF32 || op = .addF32 || op = .subF32 || op = .mulF32 || op = .divF32 ||
    op = .i64ToF32 || op = .f64ToF32

/-- Whether an instruction gives a double, a call by its flag. -/
def givesF64 (inst : Inst) : Bool :=
  opIsF64 inst.op || (inst.op = .call && inst.flags &&& flagRetF64 ≠ 0)

/-- Whether an instruction gives a single, a call by its flag. -/
def givesF32 (inst : Inst) : Bool :=
  opIsF32 inst.op || (inst.op = .call && inst.flags &&& flagRetF32 ≠ 0)

/-- Whether an opcode is the arithmetic of doubles. -/
def arithF64 (op : Op) : Bool := op = .addF64 || op = .subF64 || op = .mulF64 || op = .divF64

/-- Whether an opcode is the arithmetic of singles. -/
def arithF32 (op : Op) : Bool := op = .addF32 || op = .subF32 || op = .mulF32 || op = .divF32

/-- What the two x86-64 backends differ in: their tables, and the opcodes with float operands. -/
structure ClassRules where
  inValues : Int → Bool
  inLocals : Int → Bool
  takesF64 : Op → Bool
  takesF32 : Op → Bool
  flags : Nat

/-- The flags of the values and of the locals. -/
structure Classes where
  value64 : Int → Bool := fun _ => false
  value32 : Int → Bool := fun _ => false
  local64 : Int → Bool := fun _ => false
  local32 : Int → Bool := fun _ => false

/-- Marks a value as a double. -/
def Classes.markValue64 (s : Classes) (v : Int) : Classes :=
  { s with value64 := Function.update s.value64 v true }

/-- Marks a value as a single. -/
def Classes.markValue32 (s : Classes) (v : Int) : Classes :=
  { s with value32 := Function.update s.value32 v true }

/-- Marks a local as a double. -/
def Classes.markLocal64 (s : Classes) (v : Int) : Classes :=
  { s with local64 := Function.update s.local64 v true }

/-- Marks a local as a single. -/
def Classes.markLocal32 (s : Classes) (v : Int) : Classes :=
  { s with local32 := Function.update s.local32 v true }

section Rules

variable (rules : ClassRules)

/-- What the first scan marks: the destinations of what gives a float. -/
def seedInst (s : Classes) (inst : Inst) : Classes :=
  let s := if rules.inValues inst.dst && givesF64 inst then s.markValue64 inst.dst else s
  if rules.inValues inst.dst && givesF32 inst then s.markValue32 inst.dst else s

/-- The chain of rules for copies, loads and stores, of which the first that applies is used. -/
def propagateInst (s : Classes) (inst : Inst) : Option Classes :=
  let slot := inst.imm.toInt
  let copies := inst.op = .copy && rules.inValues inst.dst && rules.inValues inst.a
  let loads := inst.op = .loadLocal && rules.inValues inst.dst && rules.inLocals slot
  let stores := inst.op = .storeLocal && rules.inValues inst.a && rules.inLocals slot
  if copies && s.value64 inst.a && !s.value64 inst.dst then some (s.markValue64 inst.dst)
  else if copies && s.value32 inst.a && !s.value32 inst.dst then some (s.markValue32 inst.dst)
  else if loads && s.local64 slot && !s.value64 inst.dst then some (s.markValue64 inst.dst)
  else if loads && s.local32 slot && !s.value32 inst.dst then some (s.markValue32 inst.dst)
  else if loads && s.value64 inst.dst && !s.local64 slot then some (s.markLocal64 slot)
  else if loads && s.value32 inst.dst && !s.local32 slot then some (s.markLocal32 slot)
  else if stores && s.value64 inst.a && !s.local64 slot then some (s.markLocal64 slot)
  else if stores && s.value32 inst.a && !s.local32 slot then some (s.markLocal32 slot)
  else none

/-- A rule that marks an operand as a double, if it is not marked. -/
def operand64 (inst : Inst) (v : Int) (state : Classes × Bool) : Classes × Bool :=
  if rules.takesF64 inst.op && rules.inValues v && !state.1.value64 v then
    (state.1.markValue64 v, true)
  else state

/-- A rule that marks an operand as a single, if it is not marked. -/
def operand32 (inst : Inst) (v : Int) (state : Classes × Bool) : Classes × Bool :=
  if rules.takesF32 inst.op && rules.inValues v && !state.1.value32 v then
    (state.1.markValue32 v, true)
  else state

/-- What one visit of an instruction does to the flags, and whether some flag has changed. -/
def classifyInst (state : Classes × Bool) (inst : Inst) : Classes × Bool :=
  let state := match propagateInst rules state.1 inst with
    | some s => (s, true)
    | none => state
  let state := operand64 rules inst inst.b (operand64 rules inst inst.a state)
  operand32 rules inst inst.b (operand32 rules inst inst.a state)

/-- The scans that are repeated until one changes nothing. -/
def classifyLoop (data : List Inst) : Nat → Classes → Classes
  | 0, s => s
  | fuel + 1, s =>
    let next := data.foldl (classifyInst rules) (s, false)
    if next.2 then classifyLoop data fuel next.1 else next.1

/-- The classification of a function: each scan but the last sets one of the flags there are. -/
def classifyWith (f : Func) : Classes :=
  classifyLoop rules f.data (rules.flags + 1) (f.data.foldl (seedInst rules) {})

end Rules

/-- The rules of the assembly backend, whose tables have a fixed size. -/
def asmRules : ClassRules :=
  { inValues := inSlots
    inLocals := inSlots
    takesF64 := arithF64
    takesF32 := arithF32
    flags := 4 * 4096 }

/-- The classification of the assembly backend. -/
def classifyValues (f : Func) : Classes := classifyWith asmRules f

end Nytrix.Native
