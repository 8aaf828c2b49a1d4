/-
  Assembly: registers, operands, instructions and lines.

  Instructions are kept as data; `Line.render` writes them down.
-/
import Wacc.Text.Basic

namespace Wacc.Arm

inductive Reg where
  | r0
  | r1
  | r2
  | r3
  | r4
  | r5
  | r6
  | r7
  | r8
  | r9
  | r10
  | r11
  | r12
  | sp
  | lr
  | pc
  deriving DecidableEq, Repr, Inhabited

def Reg.render : Reg → Text
  | .r0 => lit "r0"
  | .r1 => lit "r1"
  | .r2 => lit "r2"
  | .r3 => lit "r3"
  | .r4 => lit "r4"
  | .r5 => lit "r5"
  | .r6 => lit "r6"
  | .r7 => lit "r7"
  | .r8 => lit "r8"
  | .r9 => lit "r9"
  | .r10 => lit "r10"
  | .r11 => lit "r11"
  | .r12 => lit "r12"
  | .sp => lit "sp"
  | .lr => lit "lr"
  | .pc => lit "pc"

def scratch : Reg := .r11

/-- The registers that a statement may use; the first one receives results. -/
def pool : List Reg := [.r4, .r5, .r6, .r7, .r8, .r9, .r10]

inductive Cond where
  | always
  | eq
  | ne
  | cs
  | lt
  | ge
  | gt
  | le
  | vs
  deriving DecidableEq, Repr, Inhabited

def Cond.render : Cond → Text
  | .always => []
  | .eq => lit "EQ"
  | .ne => lit "NE"
  | .cs => lit "CS"
  | .lt => lit "LT"
  | .ge => lit "GE"
  | .gt => lit "GT"
  | .le => lit "LE"
  | .vs => lit "VS"

inductive Routine where
  | throwOverflow
  | checkDivideByZero
  | checkArrayBounds
  | checkNullPointer
  | throwRuntime
  | printString
  | printInt
  | printBool
  | printChar
  | printReference
  | printLn
  | readInt
  | readChar
  | readString
  | freePair
  deriving DecidableEq, Repr, Inhabited

def Routine.name : Routine → Text
  | .throwOverflow => lit "p_throw_overflow_error"
  | .checkDivideByZero => lit "p_check_divide_by_zero"
  | .checkArrayBounds => lit "p_check_array_bounds"
  | .checkNullPointer => lit "p_check_null_pointer"
  | .throwRuntime => lit "p_throw_runtime_error"
  | .printString => lit "p_print_string"
  | .printInt => lit "p_print_int"
  | .printBool => lit "p_print_bool"
  | .printChar => lit "p_print_char"
  | .printReference => lit "p_print_reference"
  | .printLn => lit "p_print_ln"
  | .readInt => lit "p_read_int"
  | .readChar => lit "p_read_char"
  | .readString => lit "p_read_string"
  | .freePair => lit "p_free_pair"

inductive Extern where
  | malloc
  | free
  | exit
  | printf
  | fflush
  | puts
  | putchar
  | scanf
  | strlen
  | idiv
  | idivmod
  deriving DecidableEq, Repr, Inhabited

def Extern.name : Extern → Text
  | .malloc => lit "malloc"
  | .free => lit "free"
  | .exit => lit "exit"
  | .printf => lit "printf"
  | .fflush => lit "fflush"
  | .puts => lit "puts"
  | .putchar => lit "putchar"
  | .scanf => lit "scanf"
  | .strlen => lit "strlen"
  | .idiv => lit "__aeabi_idiv"
  | .idivmod => lit "__aeabi_idivmod"

inductive Label where
  | main
  | func (name : Text)
  | place (number : Nat)
  | const (number : Nat)
  | routine (r : Routine)
  deriving DecidableEq, Repr, Inhabited

def Label.render : Label → Text
  | .main => lit "main"
  | .func n => lit "f_" ++ n
  | .place n => lit "L" ++ decimal n
  | .const n => lit "msg_" ++ decimal n
  | .routine r => r.name

inductive Callee where
  | label (l : Label)
  | extern_ (e : Extern)
  deriving DecidableEq, Repr, Inhabited

def Callee.render : Callee → Text
  | .label l => l.render
  | .extern_ e => e.name

inductive Operand where
  | imm (n : Int)
  | reg (r : Reg)
  | lsl (r : Reg) (n : Nat)
  | asr (r : Reg) (n : Nat)
  deriving DecidableEq, Repr, Inhabited

def Operand.render : Operand → Text
  | .imm n => lit "#" ++ decimalInt n
  | .reg r => r.render
  | .lsl r n => r.render ++ lit ", LSL #" ++ decimal n
  | .asr r n => r.render ++ lit ", ASR #" ++ decimal n

inductive Address where
  | offset (base : Reg) (n : Int)
  | index (base i : Reg)
  deriving DecidableEq, Repr, Inhabited

def Address.render : Address → Text
  | .offset b n =>
    if n = 0 then lit "[" ++ b.render ++ lit "]"
    else lit "[" ++ b.render ++ lit ", #" ++ decimalInt n ++ lit "]"
  | .index b i => lit "[" ++ b.render ++ lit ", " ++ i.render ++ lit "]"

inductive Width where
  | byte
  | word
  deriving DecidableEq, Repr, Inhabited

inductive Alu where
  | add
  | sub
  | and
  | orr
  | eor
  | adds
  | subs
  | rsbs
  deriving DecidableEq, Repr, Inhabited

def Alu.name : Alu → Text
  | .add => lit "ADD"
  | .sub => lit "SUB"
  | .and => lit "AND"
  | .orr => lit "ORR"
  | .eor => lit "EOR"
  | .adds => lit "ADDS"
  | .subs => lit "SUBS"
  | .rsbs => lit "RSBS"

inductive Instr where
  | push (rs : List Reg)
  | pop (rs : List Reg)
  | mov (c : Cond) (d : Reg) (v : Operand)
  | number (d : Reg) (n : Int)
  | address (c : Cond) (d : Reg) (l : Label)
  | load (w : Width) (d : Reg) (a : Address)
  | store (w : Width) (s : Reg) (a : Address)
  | pushStore (w : Width) (s : Reg) (n : Nat)
  | alu (op : Alu) (d a : Reg) (b : Operand)
  | smull (lo hi a b : Reg)
  | cmp (a : Reg) (b : Operand)
  | branch (c : Cond) (l : Label)
  | call (c : Cond) (f : Callee)
  deriving DecidableEq, Repr, Inhabited

inductive Line where
  | label (l : Label)
  | instr (i : Instr)
  | data
  | text
  | global (l : Label)
  | pool
  | word (n : Nat)
  | ascii (t : Text)
  deriving DecidableEq, Repr, Inhabited

def regList (rs : List Reg) : Text :=
  lit "\x7b" ++ Text.joinWith (lit ", ") (rs.map Reg.render) ++ lit "\x7d"

def spell (op : Text) (args : List Text) : Text := op ++ lit " " ++ Text.joinWith (lit ", ") args

def Instr.render : Instr → Text
  | .push rs => spell (lit "PUSH") [regList rs]
  | .pop rs => spell (lit "POP") [regList rs]
  | .mov c d v => spell (lit "MOV" ++ c.render) [d.render, v.render]
  | .number d n => spell (lit "LDR") [d.render, lit "=" ++ decimalInt n]
  | .address c d l => spell (lit "LDR" ++ c.render) [d.render, lit "=" ++ l.render]
  | .load .word d a => spell (lit "LDR") [d.render, a.render]
  | .load .byte d a => spell (lit "LDRSB") [d.render, a.render]
  | .store .word s a => spell (lit "STR") [s.render, a.render]
  | .store .byte s a => spell (lit "STRB") [s.render, a.render]
  | .pushStore .word s n => spell (lit "STR") [s.render, lit "[sp, #-" ++ decimal n ++ lit "]!"]
  | .pushStore .byte s n => spell (lit "STRB") [s.render, lit "[sp, #-" ++ decimal n ++ lit "]!"]
  | .alu op d a b => spell op.name [d.render, a.render, b.render]
  | .smull lo hi a b => spell (lit "SMULL") [lo.render, hi.render, a.render, b.render]
  | .cmp a b => spell (lit "CMP") [a.render, b.render]
  | .branch c l => spell (lit "B" ++ c.render) [l.render]
  | .call c f => spell (lit "BL" ++ c.render) [f.render]

/-- A byte inside a quoted string; bytes that are not printable are written in octal. -/
def asciiByte (b : UInt8) : Text :=
  if b = '"'.toUInt8 then lit "\\\""
  else if b = '\\'.toUInt8 then lit "\\\\"
  else if b = '\n'.toUInt8 then lit "\\n"
  else if b = '\t'.toUInt8 then lit "\\t"
  else if b = '\r'.toUInt8 then lit "\\r"
  else if b < 0x20 || 0x7E < b then
    '\\'.toUInt8 :: Text.padLeft 3 '0'.toUInt8 (Text.digits 8 b.toNat)
  else [b]

def asciiQuote (t : Text) : Text := lit "\"" ++ t.flatMap asciiByte ++ lit "\""

def Line.render : Line → Text
  | .label l => l.render ++ lit ":"
  | .instr i => lit "\t" ++ i.render
  | .data => lit "\t.data"
  | .text => lit "\t.text"
  | .global l => lit "\t.global " ++ l.render
  | .pool => lit "\t.ltorg"
  | .word n => lit "\t.word " ++ decimal n
  | .ascii t => lit "\t.ascii " ++ asciiQuote t

def Line.isLabel : Line → Bool
  | .label _ => true
  | _ => false

def render (ls : List Line) : Text := ls.flatMap fun l => l.render ++ lit "\n"

/-! ## Limits of the encoding -/

/-- The largest offset of a load or store of a word, and of a store of a byte. -/
def maxWordOffset : Int := 4095

def maxByteOffset : Int := 255

def maxStep : Nat := 1024

/-- Whether a number is eight bits turned to the right by an even amount. -/
def encodable (v : UInt32) : Bool :=
  (List.range 16).any fun i =>
    let r := (2 * i).toUInt32
    let turned := if r = 0 then v else (v <<< r) ||| (v >>> (32 - r))
    turned &&& 0xFFFFFF00 == 0

end Wacc.Arm
