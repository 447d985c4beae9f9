import IrAsm.Proofs.X86.Memory

/-!
# Calls

The machine has no next state at a call, since that depends on the callee. A callee that follows the
convention gives back `%rsp`, `%rbp` and `%r12` to `%r15` as it found them, and leaves alone the
stack of its caller, which goes up to some address `top`. All else it may change, its own arguments
on the stack included: these are what the caller takes off the stack right behind the call.

`Step` is one line of a program in which each callee is one of that kind, and in which no store
through a pointer goes to the stack of the function. `Passes` is the same for the code of one
program point: `Passes top code c rest c'` says that `code` takes the state `c` to `c'` with `rest`
still to come, and `Completes top code c o c'` that control leaves the code in `c'`, at its end or
for the label `o`.
-/

namespace IrAsm.X86

/-- The registers that a callee gives back as it found them. -/
def Reg.kept : List Reg := [.rsp, .rbp, .r12, .r13, .r14, .r15]

/-- The bytes that a line takes off the stack. -/
def Line.releases : Line → Option Word
  | .code (.alu .add (.imm n) .rsp) => some n
  | _ => none

/-- The bytes that the next line takes off the stack. -/
def released (lines : List Line) : Word := (lines.head?.bind Line.releases).getD 0

/-- A callee with `size` bytes of arguments on the stack can return in `c'` if it is called in
`c`. -/
structure Cpu.Returned (top size : Word) (c c' : Cpu) : Prop where
  regs : ∀ r ∈ Reg.kept, c'.regs r = c.regs r
  mem : ∀ b, Within (c.regs .rsp + size) top b → c'.mem b = c.mem b
  globals : c'.globals = c.globals

/-- A callee may put anything into a register that it need not keep. -/
theorem Cpu.returned_setReg {r : Reg} (h : r ∉ Reg.kept) (top size : Word) (c : Cpu) (w : Word) :
    c.Returned top size (c.setReg r w) := by
  refine ⟨fun q hq => ?_, fun _ _ => rfl, rfl⟩
  have hne : q ≠ r := fun he => h (he ▸ hq)
  simp [hne]

/-- A store through a pointer stays off the stack. When `pop` stores, its word is off the stack
already. -/
def Instr.Clear (top : Word) (c : Cpu) : Instr → Prop
  | .mov _ (.indirect r) => Off (c.regs .rsp) top (c.regs r)
  | .pop (.indirect r) => Off (c.regs .rsp + 8) top (c.regs r)
  | _ => True

/-- Jumps, calls and returns. -/
def Instr.isControl : Instr → Bool
  | .jmp _ | .je _ | .call _ | .ret => true
  | _ => false

/-- Instructions that go on to the next one and store through no pointer. -/
def Instr.isDirect : Instr → Bool
  | .mov _ (.indirect _) | .pop (.indirect _) | .jmp _ | .je _ | .call _ | .ret => false
  | _ => true

theorem Instr.isControl_of_isDirect {i : Instr} (h : i.isDirect) : i.isControl = false := by
  cases i with
  | jmp | je | call | ret => cases h
  | _ => rfl

theorem Instr.clear_of_isDirect {i : Instr} (h : i.isDirect) (top : Word) (c : Cpu) :
    i.Clear top c := by
  cases i with
  | mov src dst | pop dst =>
    cases dst with
    | indirect r => cases h
    | _ => trivial
  | _ => trivial

/-! ## Lines -/

inductive Step (top : Word) (prog : List Line) : Machine → Machine → Prop where
  | line {m m' : Machine} : step prog m = some m' →
      (∀ i rest, m.lines = .code i :: rest → i.Clear top m.cpu) → Step top prog m m'
  | call {c c' : Cpu} {callee : String} {rest : List Line} : c.Returned top (released rest) c' →
      Step top prog ⟨c, .code (.call callee) :: rest⟩ ⟨c', rest⟩

def Steps (top : Word) (prog : List Line) : Machine → Machine → Prop :=
  Relation.ReflTransGen (Step top prog)

/-! ## Code of a point -/

inductive Passes (top : Word) : List Instr → Cpu → List Instr → Cpu → Prop where
  | refl {code : List Instr} {c : Cpu} : Passes top code c code c
  | exec {i : Instr} {code rest : List Instr} {c d c' : Cpu} : i.exec c = some d → i.Clear top c →
      Passes top code d rest c' → Passes top (i :: code) c rest c'
  | call {callee : String} {code rest : List Instr} {c d c' : Cpu} :
      c.Returned top (released (code.map .code)) d → Passes top code d rest c' →
      Passes top (.call callee :: code) c rest c'
  | skip {t : Label} {code rest : List Instr} {c c' : Cpu} {fl : Flags} : c.flags = some fl →
      fl.zero = false → Passes top code c rest c' → Passes top (.je t :: code) c rest c'

/-- Where control leaves code. -/
inductive Leaves : List Instr → Cpu → Option Label → Prop where
  | done {c : Cpu} : Leaves [] c none
  | jmp {t : Label} {rest : List Instr} {c : Cpu} : Leaves (.jmp t :: rest) c (some t)
  | je {t : Label} {rest : List Instr} {c : Cpu} {fl : Flags} : c.flags = some fl → fl.zero = true →
      Leaves (.je t :: rest) c (some t)

def Completes (top : Word) (code : List Instr) (c : Cpu) (o : Option Label) (c' : Cpu) : Prop :=
  ∃ rest, Passes top code c rest c' ∧ Leaves rest c' o

section
variable {top : Word} {code code' rest : List Instr} {c c' d : Cpu} {o : Option Label} {i : Instr}

theorem Passes.trans {rest' : List Instr} (h : Passes top code c rest d)
    (h' : Passes top rest d rest' c') : Passes top code c rest' c' := by
  induction h with
  | refl => exact h'
  | exec hi hclear _ ih => exact .exec hi hclear (ih h')
  | call hr _ ih => exact .call hr (ih h')
  | skip hfl hz _ ih => exact .skip hfl hz (ih h')

theorem completes_nil : Completes top [] c o c' ↔ o = none ∧ c' = c := by
  constructor
  · rintro ⟨rest, hp, hl⟩
    cases hp
    cases hl
    exact ⟨rfl, rfl⟩
  · rintro ⟨rfl, rfl⟩
    exact ⟨[], .refl, .done⟩

/-- Code completes if what is to come after its first instruction does. -/
theorem completes_cons (hi : i.isControl = false) : Completes top (i :: code) c o c' ↔
    ∃ d, i.exec c = some d ∧ i.Clear top c ∧ Completes top code d o c' := by
  constructor
  · rintro ⟨rest, hp, hl⟩
    cases hp with
    | refl => cases hl <;> cases hi
    | exec hd hclear hp => exact ⟨_, hd, hclear, rest, hp, hl⟩
    | call | skip => cases hi
  · rintro ⟨d, hd, hclear, rest, hp, hl⟩
    exact ⟨rest, .exec hd hclear hp, hl⟩

theorem completes_call_cons {callee : String} : Completes top (.call callee :: code) c o c' ↔
    ∃ d, c.Returned top (released (code.map .code)) d ∧ Completes top code d o c' := by
  constructor
  · rintro ⟨rest, hp, hl⟩
    cases hp with
    | refl => cases hl
    | exec hd => cases hd
    | call hr hp => exact ⟨_, hr, rest, hp, hl⟩
  · rintro ⟨d, hr, rest, hp, hl⟩
    exact ⟨rest, .call hr hp, hl⟩

theorem completes_jmp {t : Label} :
    Completes top (.jmp t :: code) c o c' ↔ o = some t ∧ c' = c := by
  constructor
  · rintro ⟨rest, hp, hl⟩
    cases hp with
    | refl => cases hl; exact ⟨rfl, rfl⟩
    | exec hd => cases hd
  · rintro ⟨rfl, rfl⟩
    exact ⟨_, .refl, .jmp⟩

/-- A conditional jump at the end of code is taken or not. -/
theorem of_completes_je {t : Label} (h : Completes top [.je t] c o c') :
    (o = none ∨ o = some t) ∧ c' = c := by
  obtain ⟨rest, hp, hl⟩ := h
  cases hp with
  | refl => cases hl; exact ⟨.inr rfl, rfl⟩
  | exec hd => cases hd
  | skip _ _ hp =>
    cases hp
    cases hl
    exact ⟨.inl rfl, rfl⟩

/-- Direct code in front of other code does what `run` says. -/
theorem completes_append (hcode : ∀ i ∈ code, i.isDirect) : Completes top (code ++ code') c o c' ↔
    ∃ d, run code c = some d ∧ Completes top code' d o c' := by
  induction code generalizing c with
  | nil => simp
  | cons i code ih =>
    rw [List.forall_mem_cons] at hcode
    simp only [List.cons_append, completes_cons (Instr.isControl_of_isDirect hcode.1), ih hcode.2,
      run_cons, Option.bind_eq_some_iff]
    constructor
    · rintro ⟨d, hd, -, e, he, h⟩; exact ⟨e, ⟨d, hd, he⟩, h⟩
    · rintro ⟨e, ⟨d, hd, he⟩, h⟩; exact ⟨d, hd, Instr.clear_of_isDirect hcode.1 top c, e, he, h⟩

theorem completes_iff_run (hcode : ∀ i ∈ code, i.isDirect) :
    Completes top code c o c' ↔ o = none ∧ run code c = some c' := by
  rw [← List.append_nil code, completes_append hcode]
  simp only [completes_nil, List.append_nil]
  constructor
  · rintro ⟨d, hd, rfl, rfl⟩; exact ⟨rfl, hd⟩
  · rintro ⟨rfl, h⟩; exact ⟨c', h, rfl, rfl⟩

end

end IrAsm.X86
