import IrAsm.Proofs.X86.Operations
import IrAsm.Proofs.X86.Stack

/-!
# Operands of the code

An operand is an immediate, a register or memory, and no instruction takes all of them everywhere
(`Encodable`). A sequence puts what an instruction does not take into a scratch register first, or
moves it over the stack.

The memory that code names is a word of the frame, the address of a global, or what an address in a
register points to (`Accesses`). Both are shown of the sequences at once (`Formed`), and then of the
code of a point, with the locals where they are at that point.
-/

namespace IrAsm.X86

namespace Loc

def isImm : Loc → Bool
  | .imm _ => true
  | _ => false

/-- If this is memory, it is memory that may be named. -/
def Placed (ok : Loc → Prop) (l : Loc) : Prop := l.isMemory → ok l

variable {ok : Loc → Prop} {l : Loc}

@[simp] theorem placed_reg (r : Reg) : (reg r).Placed ok := fun h => nomatch h

@[simp] theorem placed_imm (v : Word) : (imm v).Placed ok := fun h => nomatch h

end Loc

namespace Instr

/-- The operands in the order in which they are written. An address that is computed counts by its
parts. -/
def operands : Instr → List Loc
  | .mov src dst | .cmp src dst => [src, dst]
  | .push l | .pop l | .imul l | .idiv l => [l]
  | .alu _ src dst => [src, .reg dst]
  | .set _ => [.reg .rax]
  | .lea base index dst => [.reg base, .reg index, .reg dst]
  | .cqto | .jmp _ | .je _ | .call _ | .ret => []

/-- The instruction has an encoding for operands of these kinds. -/
structure Encodable (i : Instr) : Prop where
  memory : i.operands.countP Loc.isMemory ≤ 1
  dest : ∀ src dst, i.operands = [src, dst] → dst.isImm = false
  single : ∀ l, i = .imul l ∨ i = .idiv l ∨ i = .pop l → l.isImm = false
  /-- An address is computed from registers. The stack pointer cannot be the index. -/
  address : ∀ base index dst, i = .lea base index dst →
    (∀ l ∈ i.operands, ∃ r, l = .reg r) ∧ index ≠ .rsp

/-- What each instruction asks of its operands, if the memory it names has to be `ok`. -/
def Formed (ok : Loc → Prop) : Instr → Prop
  | .mov src dst | .cmp src dst =>
    src.Placed ok ∧ dst.Placed ok ∧ (src.isMemory → dst.isMemory = false) ∧ dst.isImm = false
  | .pop l | .imul l | .idiv l => l.Placed ok ∧ l.isImm = false
  | .push src | .alu _ src _ => src.Placed ok
  | .lea _ index _ => index ≠ .rsp
  | .set _ | .cqto | .jmp _ | .je _ | .call _ | .ret => True

variable {ok : Loc → Prop} {i : Instr}

theorem countP_pair_le {p : Loc → Bool} {src dst : Loc} (h : p src → p dst = false) :
    [src, dst].countP p ≤ 1 := by
  cases hs : p src with
  | false => simpa [hs] using List.countP_le_length (l := [dst])
  | true => simp [hs, h hs]

theorem Formed.encodable (h : i.Formed ok) : i.Encodable where
  memory := by
    cases i with
    | mov | cmp => exact countP_pair_le h.2.2.1
    | alu => exact countP_pair_le fun _ => rfl
    | push | pop | imul | idiv => exact List.countP_le_length
    | _ => simp [operands, Loc.isMemory]
  dest src dst hops := by
    cases i with
    | mov | cmp => cases hops; exact h.2.2.2
    | alu => cases hops; rfl
    | _ => cases hops
  single l hl := by
    rcases hl with rfl | rfl | rfl <;> exact h.2
  address base index dst hi := by
    subst hi
    exact ⟨by simp [operands], h⟩

theorem Formed.placed (h : i.Formed ok) {l : Loc} (hl : l ∈ i.operands) : l.Placed ok := by
  cases i with
  | mov src dst | cmp src dst =>
    rcases List.mem_pair.mp hl with rfl | rfl
    · exact h.1
    · exact h.2.1
  | pop | imul | idiv => exact List.mem_singleton.mp hl ▸ h.1
  | push => exact List.mem_singleton.mp hl ▸ h
  | alu op src dst =>
    rcases List.mem_pair.mp hl with rfl | rfl
    · exact h
    · exact Loc.placed_reg _
  | set => exact List.mem_singleton.mp hl ▸ Loc.placed_reg _
  | lea base index dst =>
    simp only [operands, List.mem_cons, List.not_mem_nil, or_false] at hl
    rcases hl with rfl | rfl | rfl <;> exact Loc.placed_reg _
  | _ => cases hl

end Instr

/-! ## Sequences -/

/-- All instructions of the code have a property. -/
def Every (P : Instr → Prop) (code : List Instr) : Prop := ∀ j ∈ code, P j

section
variable {P : Instr → Prop} {code code' : List Instr} {i : Instr}

@[simp] theorem every_nil : Every P [] := List.forall_mem_nil _

@[simp] theorem every_cons : Every P (i :: code) ↔ P i ∧ Every P code := List.forall_mem_cons

@[simp] theorem every_append : Every P (code ++ code') ↔ Every P code ∧ Every P code' :=
  List.forall_mem_append

theorem every_map {α : Type} {g : α → Instr} {xs : List α} :
    Every P (xs.map g) ↔ ∀ x ∈ xs, P (g x) :=
  List.forall_mem_map

end

abbrev Forms (ok : Loc → Prop) (code : List Instr) : Prop := Every (Instr.Formed ok) code

section
variable {ok : Loc → Prop} {l lhs rhs src dst : Loc} {r : Reg}

/-- Anything can be moved to a register. -/
@[simp] theorem formed_mov_reg : (Instr.mov src (.reg r)).Formed ok ↔ src.Placed ok :=
  and_iff_left ⟨Loc.placed_reg r, fun _ => rfl, rfl⟩

@[simp] theorem formed_cmp_reg : (Instr.cmp src (.reg r)).Formed ok ↔ src.Placed ok :=
  and_iff_left ⟨Loc.placed_reg r, fun _ => rfl, rfl⟩

@[simp] theorem formed_cmp_imm {v : Word} :
    (Instr.cmp (.imm v) l).Formed ok ↔ l.Placed ok ∧ l.isImm = false := by
  simp [Instr.Formed, Loc.isMemory]

@[simp] theorem formed_push : (Instr.push src).Formed ok ↔ src.Placed ok := Iff.rfl

@[simp] theorem formed_pop_reg : (Instr.pop (.reg r)).Formed ok := ⟨Loc.placed_reg r, rfl⟩

@[simp] theorem formed_alu {op : Alu} : (Instr.alu op src r).Formed ok ↔ src.Placed ok := Iff.rfl

@[simp] theorem formed_imul : (Instr.imul l).Formed ok ↔ l.Placed ok ∧ l.isImm = false := Iff.rfl

@[simp] theorem formed_idiv : (Instr.idiv l).Formed ok ↔ l.Placed ok ∧ l.isImm = false := Iff.rfl

@[simp] theorem formed_set {p : Predicate} : (Instr.set p).Formed ok := trivial

@[simp] theorem formed_cqto : Instr.cqto.Formed ok := trivial

@[simp] theorem formed_jmp {t : Label} : (Instr.jmp t).Formed ok := trivial

@[simp] theorem formed_je {t : Label} : (Instr.je t).Formed ok := trivial

namespace Sequence

theorem forms_move (hs : src.Placed ok) (hd : dst.Placed ok) (hi : dst.isImm = false) :
    Forms ok (move src dst) := by
  unfold move
  split
  · simp only [every_cons, formed_push, every_nil, and_true]
    exact ⟨hs, hd, hi⟩
  · next hboth =>
    rw [Bool.and_eq_true, not_and, Bool.not_eq_true] at hboth
    simp only [every_cons, every_nil, and_true]
    exact ⟨hs, hd, hboth, hi⟩

theorem forms_stage (h : l.Placed ok) (scratch : Reg) : Forms ok (stage scratch l).1 := by
  unfold stage
  split
  · exact every_nil
  · simp [h]

theorem forms_stageImm (l : Loc) (scratch : Reg) : Forms ok (stageImm scratch l).1 := by
  unfold stageImm
  split
  · simp
  · exact every_nil

theorem placed_stageImm (h : l.Placed ok) (scratch : Reg) :
    (stageImm scratch l).2.Placed ok ∧ (stageImm scratch l).2.isImm = false := by
  cases l with
  | imm v => exact ⟨Loc.placed_reg _, rfl⟩
  | _ => exact ⟨h, rfl⟩

theorem forms_arith (hl : lhs.Placed ok) (hr : rhs.Placed ok) (op : Arith) (dst : Reg) :
    Forms ok (arith op lhs rhs dst) := by
  have hstage : Forms ok (stageImm .rcx rhs).1 := forms_stageImm rhs .rcx
  have hfactor := placed_stageImm hr .rcx
  cases op with
  | add | or | and =>
    unfold arith commutative
    dsimp only
    split <;> simp [hl, hr]
  | sub =>
    unfold arith subtract
    dsimp only
    split <;> simp [hl, hr]
  | mul => simp [arith, multiply, hl, hstage, hfactor]
  | sdiv | srem => simp [arith, divide, hl, hstage, hfactor]

theorem forms_compare (hl : lhs.Placed ok) (hr : rhs.Placed ok) (p : Predicate) (dst : Reg) :
    Forms ok (compare p lhs rhs dst) := by
  cases lhs <;> simp [compare, hl, hr]

theorem forms_jumpIfZero (h : l.Placed ok) (target : Label) : Forms ok (jumpIfZero l target) := by
  cases l with
  | imm v => simp [jumpIfZero]
  | _ => simp [jumpIfZero, h, Loc.isImm]

theorem forms_elementAddress {base index : Loc} (hb : base.Placed ok) (hi : index.Placed ok)
    (hsp : index ≠ .reg .rsp) (dst : Reg) : Forms ok (elementAddress base index dst) := by
  have hindex : (stage .rax index).2 ≠ .rsp := by
    cases index with
    | reg r => exact fun he => hsp (congrArg Loc.reg he)
    | _ => exact fun he => nomatch he
  have hlea : (Instr.lea (stage (if index = .reg .rcx then .rax else .rcx) base).2
      (stage .rax index).2 dst).Formed ok := hindex
  simp [elementAddress, forms_stage hb, forms_stage hi, hlea]

theorem forms_call {args : List Loc} (h : ∀ a ∈ args, a.Placed ok) (preserved : List Reg)
    (callee : String) : Forms ok (call preserved args callee) := by
  have hregs : Forms ok ((args.zip Reg.args).map fun x => .mov x.1 (.reg x.2)) :=
    every_map.mpr fun x hx => formed_mov_reg.mpr (h x.1 (List.of_mem_zip hx).1)
  have hstack : Forms ok ((args.drop Reg.args.length).reverse.map .push) :=
    every_map.mpr fun a ha => h a (List.mem_of_mem_drop (List.mem_reverse.mp ha))
  have hrelease : Forms ok (release args) := by
    unfold release
    split <;> simp
  have hsave : Forms ok (preserved.map fun r => .push (.reg r)) :=
    every_map.mpr fun r _ => Loc.placed_reg r
  have hrestore : Forms ok (preserved.reverse.map fun r => .pop (.reg r)) :=
    every_map.mpr fun r _ => formed_pop_reg
  rw [call_eq]
  simp only [every_append, every_cons]
  exact ⟨hsave, hregs, hstack, trivial, hrelease, hrestore⟩

end Sequence

end

/-! ## Code -/

namespace Context

variable {c : Context} {s s' : State} {n : Nat} {i : IrAsm.Instr} {a : Operand} {l : Loc}
  {code : List Instr} {lines : List Line} {j : Instr}

/-- The memory that the code of a function names. -/
inductive Accesses (c : Context) : Loc → Prop where
  | frame {d : Int} : c.FrameWord d → c.Accesses (.frame d)
  | global (g : String) : c.Accesses (.global g)
  | indirect {r : Reg} : r ∈ .rax :: Reg.palette → c.Accesses (.indirect r)

theorem placed_of_register {x : String} (h : c.register s x = .ok l) : l.Placed c.Accesses := by
  rcases register_cases h with ⟨v, -, rfl⟩ | ⟨-, ⟨index, -, rfl⟩ | ⟨-, -, r, -, rfl⟩⟩
  · exact Loc.placed_imm v
  · exact fun _ => .frame (frameWord_of_register h)
  · exact Loc.placed_reg r

theorem placed_of_value (h : c.value s a = .ok l) : l.Placed c.Accesses := by
  cases a with
  | imm v => cases h; exact Loc.placed_imm v
  | reg x => exact placed_of_register h
  | global g => cases h; exact fun _ => .global g
  | _ => cases h

theorem forms_memory (hs : c.StateAt n s) (h : c.memory s a = .ok (code, l)) :
    Forms c.Accesses code ∧ l.Placed c.Accesses ∧ l.isImm = false := by
  rcases memory_ok h with ⟨x, d, -, hd, rfl, rfl⟩ | ⟨src, rfl, rfl, hsrc⟩
  · rw [hs.displacement?_eq] at hd
    exact ⟨every_nil, fun _ => .frame (frameWord_of_wordAt hd), rfl⟩
  · have hplaced : src.Placed c.Accesses ∧ (Sequence.stage .rax src).2 ∈ .rax :: Reg.palette := by
      rcases hsrc with ⟨x, -, -, hx⟩ | ⟨g, -, rfl⟩
      · refine ⟨placed_of_register hx, ?_⟩
        cases src with
        | reg r => exact List.mem_cons_of_mem _ (mem_palette_of_register hx)
        | _ => exact List.mem_cons_self
      · exact ⟨fun _ => .global g, List.mem_cons_self⟩
    exact ⟨Sequence.forms_stage hplaced.1 _, fun _ => .indirect hplaced.2, rfl⟩

theorem forms_selectPair {eval? : Word → Word → Option Word} {seq : Loc → Loc → Reg → List Instr}
    (hseq : ∀ {lhs rhs : Loc}, lhs.Placed c.Accesses → rhs.Placed c.Accesses → ∀ dst,
      Forms c.Accesses (seq lhs rhs dst))
    (h : c.selectPair s i eval? seq = .ok (s', code)) : Forms c.Accesses code := by
  obtain ⟨_, _, _, lhs, rhs, dst, -, ha, hb, -, ⟨_, _, v, -, -, -, -, rfl⟩ | ⟨-, rfl⟩⟩ :=
    selectPair_ok h
  · simp
  · exact hseq (placed_of_value ha) (placed_of_value hb) dst

theorem forms_selectBranch (h : c.selectBranch s n i = .ok (s', code)) : Forms c.Accesses code := by
  have hjump (t : Label) : Forms c.Accesses [.jmp t] := by simp
  obtain ⟨-, ⟨_, _, -, -, rfl⟩ | ⟨_, _, e, loc, -, -, hloc, rfl | ⟨v, -, rfl⟩⟩⟩ := selectBranch_ok h
  · split
    · exact every_nil
    · exact hjump _
  · exact Sequence.forms_jumpIfZero (placed_of_value hloc) _
  · split
    · exact hjump _
    · exact every_nil

theorem forms_selectCall (h : c.selectCall s n i = .ok (s', code)) : Forms c.Accesses code := by
  obtain ⟨args, callee, tail, hargs, -, rfl, htail⟩ := selectCall_ok h
  have hplaced : ∀ a ∈ args, a.Placed c.Accesses := fun a ha => by
    obtain ⟨x, -, hx⟩ := exists_of_mem_mapM hargs ha
    exact placed_of_value hx
  refine every_append.mpr ⟨Sequence.forms_call hplaced _ _, ?_⟩
  rcases htail with ⟨-, rfl⟩ | ⟨dst, -, rfl⟩
  · exact every_nil
  · simp

/-- The code of a point is formed. -/
theorem forms_select (hs : c.StateAt n s) (h : c.select s n i = .ok (s', code)) :
    Forms c.Accesses code := by
  unfold select at h
  split at h
  · next op _ => exact forms_selectPair (fun hl hr dst => Sequence.forms_arith hl hr op dst) h
  · next p _ => exact forms_selectPair (fun hl hr dst => Sequence.forms_compare hl hr p dst) h
  · exact forms_selectBranch h
  · exact forms_selectCall h
  · obtain ⟨-, value, rfl, rfl | ⟨_, loc, hloc, rfl⟩⟩ := selectRet_cases h
    · simp
    · simp [placed_of_value hloc]
  · obtain ⟨_, _, base, index, dst, hbase, hindex, -, -, rfl⟩ := selectAddress_ok h
    refine Sequence.forms_elementAddress (placed_of_value hbase) (placed_of_value hindex) ?_ dst
    rintro rfl
    have hpal : .rsp ∈ Reg.palette := isOperand_of_value hindex
    exact absurd hpal (by decide)
  · obtain ⟨_, _, src, dst, -, hsrc, -, -, rfl⟩ := selectBitcast_ok h
    exact Sequence.forms_move (placed_of_value hsrc) (Loc.placed_reg dst) rfl
  · obtain ⟨_, _, pre, src, dst, -, hm, -, -, rfl⟩ := selectLoad_ok h
    obtain ⟨hpre, hsrc, -⟩ := forms_memory hs hm
    exact every_append.mpr ⟨hpre, Sequence.forms_move hsrc (Loc.placed_reg dst) rfl⟩
  · obtain ⟨_, _, _, -, ⟨_, _, -, -, rfl⟩ | ⟨-, -, src, pre, dst, hsrc, hm, rfl⟩⟩ :=
      selectStore_ok h
    · exact every_nil
    · obtain ⟨hpre, hdst, himm⟩ := forms_memory hs hm
      exact every_append.mpr ⟨hpre, Sequence.forms_move (placed_of_value hsrc) hdst himm⟩
  · cases h
    exact every_nil
  · cases h

theorem forms_entryCode (c : Context) : Forms c.Accesses c.entryCode := by
  have hsave : Forms c.Accesses (c.saved.map fun r => .push (.reg r)) :=
    every_map.mpr fun r _ => Loc.placed_reg r
  have hcopies : Forms c.Accesses c.paramCopies := by
    rw [paramCopies_eq]
    exact every_map.mpr fun x _ => formed_mov_reg.mpr (Loc.placed_reg _)
  exact every_append.mpr ⟨every_append.mpr ⟨by simp, hsave⟩, hcopies⟩

theorem forms_exitCode (c : Context) : Forms c.Accesses c.exitCode := by
  have hrestore : Forms c.Accesses (c.saved.reverse.map fun r => .pop (.reg r)) :=
    every_map.mpr fun r _ => formed_pop_reg
  have hret : Instr.ret.Formed c.Accesses := trivial
  exact every_append.mpr ⟨hrestore, by simp [hret]⟩

/-- The instructions of a function are those of the prologue, of the points and of the epilogue. -/
theorem mem_emit (h : c.emit = .ok lines) : .code j ∈ lines ↔
    j ∈ c.entryCode ∨ (∃ n code, c.CodeAt n code ∧ j ∈ code) ∨ j ∈ c.exitCode := by
  obtain ⟨body, hb, rfl⟩ := emit_ok h
  have hbody : .code j ∈ body ↔ ∃ n code, c.CodeAt n code ∧ j ∈ code := by
    constructor
    · intro hj
      obtain ⟨pieces, rfl, -, hall⟩ := exists_pieces .zero (Nat.zero_le _) hb
      obtain ⟨piece, hpiece, hj⟩ := List.mem_flatten.mp hj
      obtain ⟨n, hn⟩ := List.mem_iff_getElem?.mp hpiece
      obtain ⟨p, code, -, hcode, rfl⟩ := hall n piece hn
      rcases List.mem_append.mp hj with hj | hj
      · exact nomatch c.isSilent_heading _ _ _ hj
      · exact ⟨_, code, hcode, by simpa using hj⟩
    · rintro ⟨n, code, ⟨p, s, s', hp, hs, hsel⟩, hj⟩
      obtain ⟨t, t', code', before, tail, ht, hsel', -, -, rfl⟩ := exists_code hb hp
      obtain rfl := hs.unique ht
      obtain ⟨-, rfl⟩ := Prod.mk.inj (Except.ok.inj (hsel.symm.trans hsel'))
      simp [hj]
  simp [prologue, epilogue, hbody]

theorem forms_emit (h : c.emit = .ok lines) (hj : .code j ∈ lines) : j.Formed c.Accesses := by
  rcases (mem_emit h).mp hj with hj | ⟨n, code, ⟨p, s, s', -, hs, hsel⟩, hj⟩ | hj
  · exact c.forms_entryCode j hj
  · exact forms_select hs hsel j hj
  · exact c.forms_exitCode j hj

/-- Every instruction of a function has operands that it can be encoded with. -/
theorem operands_encodable (h : c.emit = .ok lines) (hj : .code j ∈ lines) : j.Encodable :=
  (forms_emit h hj).encodable

/-- Stores an argument that is on the stack to an address. -/
def spilled : Function where
  name := "f"
  ret := .void
  params := [⟨"p", .ptr (.int 64)⟩, ⟨"b", .int 64⟩, ⟨"c", .int 64⟩, ⟨"d", .int 64⟩, ⟨"e", .int 64⟩]
  blocks := [⟨none, [⟨.store, [.reg "e", .reg "p"], none, .int 64⟩, ⟨.ret, [], none, .void⟩]⟩]

/-- A single move would have two memory operands. -/
theorem operands_encodable_spilled : ∃ (c : Context) (lines : List Line), c.function = spilled ∧
    c.emit = .ok lines ∧ ¬ (Instr.mov (.frame 16) (.indirect .r8)).Encodable ∧
    (Line.code (.push (.frame 16)) ∈ lines ∧ (Instr.push (.frame 16)).Encodable) ∧
    Line.code (.pop (.indirect .r8)) ∈ lines ∧ (Instr.pop (.indirect .r8)).Encodable := by
  have heval : ((Flow.build spilled).toOption.bind fun fl =>
      (emit ⟨spilled, fl, Liveness.analyze fl.points, ⟨.ofList [("p", 0), ("e", 1)]⟩,
        {}⟩).toOption.map fun lines =>
          decide (Line.code (.push (.frame 16)) ∈ lines ∧
            Line.code (.pop (.indirect .r8)) ∈ lines)) =
        some true := by
    decide +kernel
  simp only [Option.bind_eq_some_iff, Option.map_eq_some_iff, toOption_eq_some_iff,
    decide_eq_true_eq] at heval
  obtain ⟨fl, -, lines, hl, hpush, hpop⟩ := heval
  exact ⟨_, lines, rfl, hl, fun hmov => absurd hmov.memory (by decide),
    ⟨hpush, operands_encodable hl hpush⟩, hpop, operands_encodable hl hpop⟩

end Context

end IrAsm.X86
