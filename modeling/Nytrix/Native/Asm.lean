import Nytrix.Nir.Ir

/-! The assembly text that the x86-64 backend prints, as lines over a few kinds of operands. -/

namespace Nytrix.Native

open Nytrix.Nir

/-- The bytes of a C string, without the one that ends it. -/
abbrev Text := List UInt8

/-- The bytes of a string. -/
def text (s : String) : Text := s.toUTF8.data.toList

/-- An integer as `printf` prints it in base ten. -/
def decimal (n : Int) : Text := text (toString n)

/-- What `snprintf` leaves of a text in a buffer of a size. -/
def snprintf (size : Nat) (t : Text) : Text := t.take (size - 1)

/-- The general registers that the text names, and the low bytes of three of them. -/
inductive Reg where
  | rax | rbx | rcx | rdx | rsi | rdi | rbp | rsp | r8 | r9 | al | bl | cl
  deriving DecidableEq

/-- An operand. A register that a target does not have is printed from a null pointer. -/
inductive Operand where
  | imm (value : Int)
  | reg (r : Reg)
  | xmm (index : Nat)
  | mem (disp : Int) (base : Reg)
  | scaled (disp : Int) (index : Reg) (scale : Nat)
  | symbol (name : String)
  | null
  deriving DecidableEq

/-- The mnemonics of the instructions that neither jump nor call. -/
inductive Mnemonic where
  | movq | movabsq | movb | movzbq | leaq | pushq | popq | addq | subq | imulq | andq | orq | xorq
  | shlq | sarq | cqto | idivq | cmpq | testq | repMovsb | leave | ret
  | sete | setne | setl | setle | setg | setge | setb | setbe | seta | setae
  | movsd | movss | addsd | subsd | mulsd | divsd | addss | subss | mulss | divss
  | cvtsi2sdq | cvtsi2ssq | cvtss2sd | cvtsd2ss | ucomisd | ucomiss
  deriving DecidableEq

/-- The mnemonics of the jumps. -/
inductive Jump where
  | jmp | jne | jp
  deriving DecidableEq

/-- The directives about a symbol. -/
inductive Directive where
  | type | globl | size | p2align
  deriving DecidableEq

/-- One line of the text. -/
inductive Line where
  | directive (kind : Directive) (name : Text)
  | label (name : Text)
  | jump (kind : Jump) (target : Text)
  | call (target : Text)
  | inst (mnemonic : Mnemonic) (operands : List Operand)
  deriving DecidableEq

/-- The label that a line defines. -/
def Line.defines : Line → Option Text
  | .label name => some name
  | _ => none

/-- The label that a line jumps to. -/
def Line.refers : Line → Option Text
  | .jump _ target => some target
  | _ => none

/-- The labels that a text defines, in order and as often as it does. -/
def defines (lines : List Line) : List Text := lines.filterMap Line.defines

/-- The labels that the jumps of a text go to. -/
def refers (lines : List Line) : List Text := lines.filterMap Line.refers

@[simp] theorem defines_append (left right : List Line) :
    defines (left ++ right) = defines left ++ defines right := List.filterMap_append

@[simp] theorem refers_append (left right : List Line) :
    refers (left ++ right) = refers left ++ refers right := List.filterMap_append

/-- What the emitter reads of a target. -/
structure Target where
  symbolPrefix : String := ""
  isMacho : Bool := false
  gpArgRegs : List Reg
  shadowSpaceBytes : Nat := 0
  deriving DecidableEq

/-- The integer registers of the System V convention. -/
def sysvRegs : List Reg := [.rdi, .rsi, .rdx, .rcx, .r8, .r9]

/-- The integer registers of the Windows convention. -/
def win64Regs : List Reg := [.rcx, .rdx, .r8, .r9]

/-- The object formats. -/
inductive ObjectFormat where
  | elf | coff | macho
  deriving DecidableEq

/-- The x86-64 target of an object format and a convention. -/
def targetInfo (format : ObjectFormat) (win64 : Bool) : Target :=
  { symbolPrefix := if format = .macho then "_" else ""
    isMacho := format = .macho
    gpArgRegs := if win64 then win64Regs else sysvRegs
    shadowSpaceBytes := if win64 then 32 else 0 }

/-- Why nothing is printed: an error with its text, or an access outside an array. -/
inductive EmitError where
  | fail (text : String)
  | undefined
  deriving DecidableEq

/-- What an emitter does: it appends lines, or it fails. -/
abbrev Emitted := Except EmitError (List Line)

/-- The lines of one emitter after those of another. -/
def Emitted.andThen (first second : Emitted) : Emitted := do
  let before ← first
  let after ← second
  pure (before ++ after)

end Nytrix.Native
