import IrAsm.X86.Code
import Mathlib.Logic.Relation

/-!
# The machine

What each instruction does to registers, memory and flags, and runs of a list of lines. Immediates
have their full width. Where a division faults, or an instruction has no such operands, there is no
next state.

A machine holds the lines that are still to come, which are always a rest of the whole program. A
jump goes on at the line that defines its label; labels are the same if their texts are.
`Runs prog m m'`: from `m` the program reaches `m'`. `Returns prog m w`: it reaches `retq` with `w`
in `%rax`.
-/

namespace IrAsm.X86

/-! ## Flags -/

/-- The flags that conditions read. -/
structure Flags where
  zero : Bool
  sign : Bool
  overflow : Bool
  deriving DecidableEq, Repr

namespace Flags

/-- The flags of `x + y`. -/
def ofAdd (x y : Word) : Flags := ⟨x + y == 0, (x + y).msb, BitVec.saddOverflow x y⟩

/-- The flags of `x - y`. -/
def ofSub (x y : Word) : Flags := ⟨x - y == 0, (x - y).msb, BitVec.ssubOverflow x y⟩

/-- The flags of a result of `or` or `and`. -/
def ofBits (x : Word) : Flags := ⟨x == 0, x.msb, false⟩

/-- The condition that `set` tests. -/
def holds (fl : Flags) : Predicate → Bool
  | .eq => fl.zero
  | .ne => !fl.zero
  | .slt => fl.sign != fl.overflow
  | .sle => fl.zero || fl.sign != fl.overflow
  | .sgt => !fl.zero && fl.sign == fl.overflow
  | .sge => fl.sign == fl.overflow

theorem zero_ofSub (x y : Word) : (ofSub x y).zero = (x == y) := by
  have h : x - y = 0#64 ↔ x = y := by bv_omega
  rw [Bool.eq_iff_iff]
  simp [ofSub, h]

/-- The sign of a difference is wrong exactly if it overflows. -/
theorem sign_ofSub (x y : Word) : ((ofSub x y).sign != (ofSub x y).overflow) = x.slt y := by
  have hx := BitVec.toInt_lt (x := x)
  have hx' := BitVec.le_toInt (x := x)
  have hy := BitVec.toInt_lt (x := y)
  have hy' := BitVec.le_toInt (x := y)
  simp only [ofSub, BitVec.msb_eq_toInt, BitVec.toInt_sub, BitVec.ssubOverflow,
    BitVec.slt_eq_decide, Int.bmod_def]
  simp only [Nat.add_one_sub_one] at hx hx' hy hy' ⊢
  grind

/-- Conditions read from the flags of a difference are comparisons. -/
theorem holds_ofSub (p : Predicate) (x y : Word) : (ofSub x y).holds p = p.holds x y := by
  have hz := zero_ofSub x y
  have hs := sign_ofSub x y
  have hge : ((ofSub x y).sign == (ofSub x y).overflow) = y.sle x := by
    rw [BitVec.sle_eq_not_slt, ← hs, bne, Bool.not_not]
  cases p with
  | eq => exact hz
  | ne => simp [holds, Predicate.holds, hz, bne]
  | slt => exact hs
  | sle => simp [holds, Predicate.holds, hz, hs, BitVec.sle_eq_slt_or_eq, Bool.or_comm]
  | sgt =>
    rw [holds, hz, hge, Predicate.holds, BitVec.sle_eq_slt_or_eq, BEq.comm]
    by_cases h : y = x
    · simp [h, BitVec.slt_eq_decide]
    · simp [beq_eq_false_iff_ne.mpr h]
  | sge => exact hge

end Flags

/-! ## Registers and memory -/

/-- What instructions work on. -/
structure Cpu where
  regs : Reg → Word
  mem : Word → BitVec 8
  /-- There are none where the last instruction leaves them undefined. -/
  flags : Option Flags
  /-- Where the address of a global lies in memory. -/
  globals : String → Word

namespace Cpu

def setReg (c : Cpu) (r : Reg) (w : Word) : Cpu :=
  { c with regs := fun q => if q = r then w else c.regs q }

/-- The word at an address, its low byte first. -/
def load (c : Cpu) (a : Word) : Word :=
  c.mem (a + 7) ++ c.mem (a + 6) ++ c.mem (a + 5) ++ c.mem (a + 4) ++
    c.mem (a + 3) ++ c.mem (a + 2) ++ c.mem (a + 1) ++ c.mem a

def store (c : Cpu) (a w : Word) : Cpu :=
  { c with mem := fun b =>
      if b - a < 8 then (w >>> (8 * (b - a).toNat)).setWidth 8 else c.mem b }

def read (c : Cpu) : Loc → Word
  | .imm value => value
  | .reg r => c.regs r
  | .frame displacement => c.load (c.regs .rbp + BitVec.ofInt 64 displacement)
  | .global name => c.load (c.globals name)
  | .indirect r => c.load (c.regs r)

def write (c : Cpu) : Loc → Word → Option Cpu
  | .imm _, _ => none
  | .reg r, w => some (c.setReg r w)
  | .frame displacement, w => some (c.store (c.regs .rbp + BitVec.ofInt 64 displacement) w)
  | .global name, w => some (c.store (c.globals name) w)
  | .indirect r, w => some (c.store (c.regs r) w)

/-- Divides `%rdx` and `%rax` together by `y`. It faults if the quotient does not fit in a
register. -/
def divide (c : Cpu) (y : Word) : Option Cpu :=
  let dividend := (c.regs .rdx ++ c.regs .rax).toInt
  let quotient := dividend.tdiv y.toInt
  if y = 0 ∨ (BitVec.ofInt 64 quotient).toInt ≠ quotient then none
  else some { (c.setReg .rax (BitVec.ofInt 64 quotient)).setReg .rdx
      (BitVec.ofInt 64 (dividend.tmod y.toInt)) with flags := none }

@[simp] theorem regs_setReg (c : Cpu) (r q : Reg) (w : Word) :
    (c.setReg r w).regs q = if q = r then w else c.regs q := rfl

@[simp] theorem mem_setReg (c : Cpu) (r : Reg) (w : Word) : (c.setReg r w).mem = c.mem := rfl

@[simp] theorem setReg_regs (c : Cpu) (r : Reg) : c.setReg r (c.regs r) = c := by
  have h : (fun q => if q = r then c.regs r else c.regs q) = c.regs := by
    funext q
    split
    · next h => rw [h]
    · rfl
  rw [setReg, h]

@[simp] theorem regs_store (c : Cpu) (a w : Word) : (c.store a w).regs = c.regs := rfl

@[simp] theorem read_imm (c : Cpu) (w : Word) : c.read (.imm w) = w := rfl

@[simp] theorem read_reg (c : Cpu) (r : Reg) : c.read (.reg r) = c.regs r := rfl

end Cpu

/-! ## Instructions -/

/-- The result and the flags of an operation that changes its destination. -/
def Alu.eval : Alu → Word → Word → Word × Flags
  | .add, x, y => (x + y, .ofAdd x y)
  | .sub, x, y => (x - y, .ofSub x y)
  | .or, x, y => (x ||| y, .ofBits (x ||| y))
  | .and, x, y => (x &&& y, .ofBits (x &&& y))

/-- The state after an instruction. Jumps, calls and returns have none here: where they go depends
on more than the state. -/
def Instr.exec (c : Cpu) : Instr → Option Cpu
  | .mov src dst => if src.isMemory && dst.isMemory then none else c.write dst (c.read src)
  | .push src =>
    some ((c.setReg .rsp (c.regs .rsp - 8)).store (c.regs .rsp - 8) (c.read src))
  | .pop dst => (c.setReg .rsp (c.regs .rsp + 8)).write dst (c.load (c.regs .rsp))
  | .alu op src dst =>
    let (w, fl) := op.eval (c.regs dst) (c.read src)
    some { c.setReg dst w with flags := some fl }
  | .cmp _ (.imm _) => none
  | .cmp src dst =>
    if src.isMemory && dst.isMemory then none
    else some { c with flags := some (.ofSub (c.read dst) (c.read src)) }
  | .set p => c.flags.map fun fl =>
    c.setReg .rax ((c.regs .rax).extractLsb' 8 56 ++ if fl.holds p then 1#8 else 0#8)
  | .imul (.imm _) => none
  | .imul src =>
    let product := (c.regs .rax).signExtend 128 * (c.read src).signExtend 128
    some { (c.setReg .rax (product.setWidth 64)).setReg .rdx (product.extractLsb' 64 64) with
      flags := none }
  | .cqto => some (c.setReg .rdx (if (c.regs .rax).msb then -1 else 0))
  | .idiv (.imm _) => none
  | .idiv src => c.divide (c.read src)
  | .lea base index dst => some (c.setReg dst (c.regs base + 8 * c.regs index))
  | .jmp _ | .je _ | .call _ | .ret => none

/-- The state after instructions in a row. -/
def run (code : List Instr) (c : Cpu) : Option Cpu := code.foldlM Instr.exec c

@[simp] theorem run_nil (c : Cpu) : run [] c = some c := rfl

@[simp] theorem run_cons (i : Instr) (code : List Instr) (c : Cpu) :
    run (i :: code) c = (i.exec c).bind (run code) := rfl

theorem run_append (code code' : List Instr) (c : Cpu) :
    run (code ++ code') c = (run code c).bind (run code') := List.foldlM_append

/-! ## Programs -/

/-- Does a line define a label with this text? -/
def Line.defines (text : String) : Line → Bool
  | .label l => l.text == text
  | _ => false

/-- The lines from the first one on that defines a label. -/
def target? : List Line → Label → Option (List Line)
  | [], _ => none
  | line :: rest, t => if line.defines t.text then some (line :: rest) else target? rest t

/-- A state and the lines to come. -/
structure Machine where
  cpu : Cpu
  lines : List Line

/-- One line of a program. -/
def step (prog : List Line) (m : Machine) : Option Machine :=
  match m.lines with
  | [] => none
  | .code (.jmp t) :: _ => (target? prog t).map (⟨m.cpu, ·⟩)
  | .code (.je t) :: rest => do
    let fl ← m.cpu.flags
    if fl.zero then (target? prog t).map (⟨m.cpu, ·⟩) else return ⟨m.cpu, rest⟩
  | .code i :: rest => (i.exec m.cpu).map (⟨·, rest⟩)
  | _ :: rest => some ⟨m.cpu, rest⟩

/-- A program takes the machine `m` to `m'`. -/
def Runs (prog : List Line) : Machine → Machine → Prop :=
  Relation.ReflTransGen fun m m' => step prog m = some m'

/-- A program takes the machine `m` to `retq`, with `w` in `%rax`. -/
def Returns (prog : List Line) (m : Machine) (w : Word) : Prop :=
  ∃ m', Runs prog m m' ∧ m'.lines.head? = some (.code .ret) ∧ m'.cpu.regs .rax = w

/-- Lines that the machine passes over. -/
def Line.isSilent : Line → Bool
  | .code _ => false
  | _ => true

section
variable {prog rest : List Line} {c c' : Cpu} {m m' : Machine} {w : Word}

theorem step_silent {line : Line} (h : line.isSilent) :
    step prog ⟨c, line :: rest⟩ = some ⟨c, rest⟩ := by
  cases line with
  | code i => cases h
  | _ => rfl

theorem step_of_exec {i : Instr} (h : i.exec c = some c') :
    step prog ⟨c, .code i :: rest⟩ = some ⟨c', rest⟩ := by
  cases i with
  | jmp | je | call | ret => cases h
  | _ => simp [step, h]

/-- A step goes to the next line or to a label. -/
theorem lines_of_step (h : step prog m = some m') :
    m'.lines = m.lines.tail ∨ ∃ t, target? prog t = some m'.lines := by
  obtain ⟨c, lines⟩ := m
  cases lines with
  | nil => cases h
  | cons line rest =>
    cases line with
    | code i =>
      cases i with
      | jmp t =>
        obtain ⟨lines, ht, rfl⟩ := Option.map_eq_some_iff.mp h
        exact .inr ⟨t, ht⟩
      | je t =>
        obtain ⟨fl, -, h⟩ := Option.bind_eq_some_iff.mp h
        split at h
        · obtain ⟨lines, ht, rfl⟩ := Option.map_eq_some_iff.mp h
          exact .inr ⟨t, ht⟩
        · cases h; exact .inl rfl
      | _ =>
        simp only [step, Option.map_eq_some_iff] at h
        obtain ⟨c', -, rfl⟩ := h
        exact .inl rfl
    | _ => cases h; exact .inl rfl

theorem Runs.silent {lines : List Line} (h : ∀ line ∈ lines, line.isSilent) :
    Runs prog ⟨c, lines ++ rest⟩ ⟨c, rest⟩ := by
  induction lines with
  | nil => exact .refl
  | cons line lines ih =>
    rw [List.forall_mem_cons] at h
    exact .head (step_silent h.1) (ih h.2)

/-- Instructions in a row are done one after another. -/
theorem Runs.code {code : List Instr} (h : run code c = some c') :
    Runs prog ⟨c, code.map .code ++ rest⟩ ⟨c', rest⟩ := by
  induction code generalizing c with
  | nil => cases h; exact .refl
  | cons i code ih =>
    obtain ⟨d, hd, h⟩ := Option.bind_eq_some_iff.mp h
    exact .head (step_of_exec hd) (ih h)

theorem Returns.of_runs (h : Runs prog m m') (h' : Returns prog m' w) : Returns prog m w := by
  obtain ⟨e, he, hret⟩ := h'
  exact ⟨e, h.trans he, hret⟩

theorem target?_append {pre : List Line} {line : Line} {t : Label}
    (hpre : ∀ l ∈ pre, l.defines t.text = false) (hline : line.defines t.text) :
    target? (pre ++ line :: rest) t = some (line :: rest) := by
  induction pre with
  | nil => simp [target?, hline]
  | cons l pre ih =>
    rw [List.forall_mem_cons] at hpre
    simp [target?, hpre.1, ih hpre.2]

end

end IrAsm.X86
