import IrAsm.Proofs.Path
import IrAsm.Proofs.X86.Refinement

/-!
# Executions of a function

A function is called in some state `cpu`. `c.Executes cpu past n e`: its prologue is done, then
control went through the points of `past`, each time from the state that is given with it, the
latest first, and has now come to point `n` in the state `e`. All the while the frame is set up, and
control went where the function says.

The compiled lines do nothing else: wherever a run of them stands before an instruction, that is
part of the prologue, of the epilogue, or of the code of the point to which such an execution has
come (`Accounts`).
-/

namespace IrAsm

namespace X86

/-- The argument at an index, where a function is called in `cpu`. The word at `%rsp` is the return
address. -/
def Cpu.argument (cpu : Cpu) (index : Nat) : Word :=
  match Reg.args[index]? with
  | some r => cpu.regs r
  | none => cpu.load (cpu.regs .rsp + BitVec.ofNat 64 (8 * (index - Reg.args.length) + 8))

section
variable {top : Word} {prog rest : List Line} {e : Cpu} {i : Instr} {m' : Machine}

/-- What is no jump, call or return goes on to the next line. -/
theorem Step.exec (hi : i.isControl = false) (h : Step top prog ⟨e, .code i :: rest⟩ m') :
    ∃ d, i.exec e = some d ∧ i.Clear top e ∧ m' = ⟨d, rest⟩ := by
  cases h with
  | line hs hclear =>
    have hstep : step prog ⟨e, .code i :: rest⟩ = (i.exec e).map (⟨·, rest⟩) := by
      cases i with
      | jmp | je | call | ret => cases hi
      | _ => rfl
    rw [hstep] at hs
    obtain ⟨d, hd, rfl⟩ := Option.map_eq_some_iff.mp hs
    exact ⟨d, hd, hclear i rest rfl, rfl⟩
  | call _ => cases hi

/-- The machine after `k` lines, none of them a call. -/
def advance (prog : List Line) : Nat → Machine → Option Machine
  | 0, m => some m
  | k + 1, m => (step prog m).bind (advance prog k)

/-- The line stores through a pointer. -/
def Line.isIndirect : Line → Bool
  | .code (.mov _ (.indirect _)) | .code (.pop (.indirect _)) => true
  | _ => false

theorem steps_of_advance (hprog : ∀ line ∈ prog, line.isIndirect = false) (top : Word) {k : Nat}
    {m m' : Machine} (hm : m.lines <:+ prog) (h : advance prog k m = some m') :
    Steps top prog m m' ∧ m'.lines <:+ prog := by
  induction k generalizing m with
  | zero => cases h; exact ⟨.refl, hm⟩
  | succ k ih =>
    obtain ⟨d, hd, h⟩ := Option.bind_eq_some_iff.mp h
    have hstep : Step top prog m d := by
      refine .line hd fun i rest hi => ?_
      have hline := hprog _ (hm.subset (hi ▸ List.mem_cons_self))
      unfold Instr.Clear
      split
      · cases hline
      · cases hline
      · trivial
    obtain ⟨hsteps, hm'⟩ := ih (hstep.suffix hm) h
    exact ⟨.head hstep hsteps, hm'⟩

theorem not_step_ret : ¬ Step top prog ⟨e, .code .ret :: rest⟩ m' := by
  rintro ⟨hs, -⟩
  cases hs

/-- A step within a piece of code goes on in it or jumps out of it. -/
theorem Step.passes_or_leaves {code : List Instr} {tail : List Line}
    (hrel : released (code.map .code ++ tail) = released (code.map .code))
    (h : Step top prog ⟨e, .code i :: (code.map .code ++ tail)⟩ m') :
    (∃ d, Passes top (i :: code) e code d ∧ m' = ⟨d, code.map .code ++ tail⟩) ∨
      ∃ t lines, Leaves (i :: code) e (some t) ∧ target? prog t = some lines ∧ m' = ⟨e, lines⟩ := by
  cases i with
  | jmp t =>
    cases h with
    | line h _ =>
      obtain ⟨lines, ht, rfl⟩ := Option.map_eq_some_iff.mp h
      exact .inr ⟨t, lines, .jmp, ht, rfl⟩
  | je t =>
    cases h with
    | line h _ =>
      obtain ⟨fl, hfl, h⟩ := Option.bind_eq_some_iff.mp h
      split at h
      · next hz =>
        obtain ⟨lines, ht, rfl⟩ := Option.map_eq_some_iff.mp h
        exact .inr ⟨t, lines, .je hfl hz, ht, rfl⟩
      · next hz =>
        cases h
        exact .inl ⟨e, .skip hfl (by simpa using hz) .refl, rfl⟩
  | call callee =>
    cases h with
    | line h _ => cases h
    | call hr => exact .inl ⟨_, .call (hrel ▸ hr) .refl, rfl⟩
  | ret => exact absurd h not_step_ret
  | _ =>
    obtain ⟨d, hd, hclear, rfl⟩ := h.exec rfl
    exact .inl ⟨d, .exec hd hclear .refl, rfl⟩

end

namespace Context

variable {c : Context} {cpu e e' : Cpu} {past : List (Nat × Cpu)} {n m : Nat} {p : Point}
  {s s' : State} {code : List Instr} {o : Option Label}

/-- Where the stack of a function ends that is called in `cpu`: behind its arguments. -/
def stackTop (c : Context) (cpu : Cpu) : Word :=
  cpu.regs .rsp + BitVec.ofNat 64 (8 * (c.function.params.length - Reg.args.length) + 8)

def CodeAt (c : Context) (n : Nat) (code : List Instr) : Prop :=
  ∃ p s s', c.flow.points[n]? = some p ∧ c.StateAt n s ∧ c.select s n p.instr = .ok (s', code)

/-- Control goes on to point `m` if it leaves the code of point `n` at its end, or for a label. -/
inductive Leads (c : Context) (n : Nat) : Option Label → Nat → Prop where
  | next : c.Leads n none (n + 1)
  | jump {l : String} {m : Nat} : c.flow.start? l = some m → c.Leads n (some (c.blockLabel l)) m

inductive Executes (c : Context) (cpu : Cpu) : List (Nat × Cpu) → Nat → Cpu → Prop where
  | start {e : Cpu} : run c.entryCode cpu = some e → c.Executes cpu [] 0 e
  | visit {past : List (Nat × Cpu)} {n m : Nat} {e e' : Cpu} {code : List Instr}
      {o : Option Label} : c.Executes cpu past n e → c.CodeAt n code →
      Completes (c.stackTop cpu) code e o e' → c.Leads n o m → c.Executes cpu ((n, e) :: past) m e'

/-- Every instruction that a run of the lines comes to is one of the prologue or epilogue, or
belongs to the point to which an execution has come. -/
def Accounts (c : Context) (lines : List Line) : Prop :=
  ∀ (cpu e : Cpu) (i : Instr) (rest : List Line),
    Steps (c.stackTop cpu) lines ⟨cpu, lines⟩ ⟨e, .code i :: rest⟩ →
    i ∈ c.entryCode ∨ i ∈ c.exitCode ∨ ∃ past n b code later, c.Executes cpu past n b ∧
      c.CodeAt n code ∧ Passes (c.stackTop cpu) code b (i :: later) e

/-- At each point there is room for all that its code pushes. -/
def Roomy (c : Context) : Prop :=
  ∀ p ∈ c.flow.points, c.Fits (Reg.callerSaved.length + p.instr.operands.length + 1)

theorem roomy_of_function (hc : c.Faithful) (h : c.function.Fits)
    (hlen : c.flow.allocas.length ≤ c.function.instrs.length) : c.Roomy := fun _ hp =>
  fits_of_function h hlen (Function.mem_body.mp (hc.flow.instr_mem_body hp)).1

theorem Roomy.fits (h : c.Roomy) (hc : c.Faithful) : c.Fits 1 := by
  obtain ⟨b, bs, hb⟩ := List.exists_cons_of_ne_nil hc.wellFormed.blocks
  have hpos := hc.wellFormed.body_pos (hb ▸ List.mem_cons_self : b ∈ c.function.blocks)
  have hlt : 0 < c.flow.points.length := by
    rw [hc.flow.length, Function.body, hb, List.flatMap_cons, List.length_append]
    omega
  exact (h _ (List.getElem_mem hlt)).mono (by omega)

/-! ## The prologue -/

theorem quiet_paramCopies (c : Context) : Quiet Reg.palette c.paramCopies := by
  rw [Quiet, paramCopies_eq, List.forall_mem_map]
  exact fun x hx => mem_palette_of_copies hx

/-- The first three instructions set up `%rbp` and the slots. -/
theorem run_setup {d : Cpu} (h : run [.push (.reg .rbp), .mov (.reg .rsp) (.reg .rbp),
      .alu .sub (.imm (BitVec.ofNat 64 c.initial.frame.size)) .rsp] cpu = some d) :
    d.regs .rbp = cpu.regs .rsp - 8 ∧
      d.regs .rsp = cpu.regs .rsp - BitVec.ofNat 64 (8 + 8 * c.flow.allocas.length) ∧
      d.mem = (cpu.push (cpu.regs .rbp)).mem ∧
      ∀ r, r ≠ .rsp → r ≠ .rbp → d.regs r = cpu.regs r := by
  obtain rfl : _ = d := by simpa using h
  refine ⟨by simp, ?_, rfl, fun r hsp hbp => by simp [Cpu.push, hsp, hbp]⟩
  simp only [Alu.eval, initial, Frame.plan, Cpu.regs_setReg, Cpu.rsp_push,
    BitVec.ofNat_add, if_true, reduceCtorEq, if_false]
  generalize BitVec.ofNat 64 (8 * c.flow.allocas.length) = x
  bv_omega

theorem within_of_below {lo b : Word} {above below : Nat} (h : above + below < 2 ^ 64)
    (hb : Within lo (lo + BitVec.ofNat 64 above) b) :
    Within (lo - BitVec.ofNat 64 below) (lo + BitVec.ofNat 64 above) b := by
  unfold Within at *
  bv_omega

theorem room_of_below {above below k : Nat} (h : above + below + 8 * k < 2 ^ 64)
    (hsp : e.regs .rsp = cpu.regs .rsp - BitVec.ofNat 64 below) :
    e.Room (cpu.regs .rsp + BitVec.ofNat 64 above) k := by
  rw [Cpu.Room, hsp]
  generalize 8 * k = k at *
  bv_omega

/-- The prologue on its way from `cpu` to `e`: in `d` the frame pointer and the slots are set up, in
`d'` the registers are saved too. -/
structure Enters (c : Context) (cpu d d' e : Cpu) : Prop where
  rbp : d.regs .rbp = cpu.regs .rsp - 8
  rsp : d.regs .rsp = cpu.regs .rsp - BitVec.ofNat 64 (8 + 8 * c.flow.allocas.length)
  mem : d.mem = (cpu.push (cpu.regs .rbp)).mem
  regs : ∀ r, r ≠ .rsp → r ≠ .rbp → d.regs r = cpu.regs r
  room : d.Room (c.stackTop cpu) c.saved.length
  saves : run (c.saved.map fun r => .push (.reg r)) d = some d'
  copies : run c.paramCopies d' = some e

theorem exists_enters (hfits : c.Fits 1) (h : run c.entryCode cpu = some e) :
    ∃ d d', c.Enters cpu d d' e := by
  rw [entryCode, run_append, run_append] at h
  obtain ⟨d', h, hcopies⟩ := Option.bind_eq_some_iff.mp h
  obtain ⟨d, hsetup, hpush⟩ := Option.bind_eq_some_iff.mp h
  obtain ⟨hbp, hsp, hmem, hregs⟩ := run_setup hsetup
  unfold Fits bytesAbove bytesBelow at hfits
  exact ⟨d, d', hbp, hsp, hmem, hregs, room_of_below (by omega) hsp, hpush, hcopies⟩

/-- The prologue sets up the frame and leaves alone what is above it. -/
theorem framed_entryCode (hfits : c.Fits 1) (h : run c.entryCode cpu = some e) :
    c.Framed (c.stackTop cpu) e ∧ e.regs .rbp = cpu.regs .rsp - 8 ∧
      ∀ b, Within (cpu.regs .rsp) (c.stackTop cpu) b → e.mem b = cpu.mem b := by
  obtain ⟨d, d', hin⟩ := exists_enters hfits h
  obtain ⟨hs, hsp'⟩ := spares_saves hin.room hin.saves
  have hkeep := c.quiet_paramCopies.run hin.copies
  have hrbp : e.regs .rbp = cpu.regs .rsp - 8 := by
    rw [hkeep.regs .rbp (by decide), hs.regs .rbp (by decide), hin.rbp]
  unfold Fits bytesAbove bytesBelow at hfits
  refine ⟨⟨?_, ?_⟩, hrbp, fun b hb => ?_⟩
  · rw [hkeep.regs .rsp (by decide), hsp', hin.rsp, hrbp, bytesBelow, Nat.mul_add,
      BitVec.ofNat_add, BitVec.ofNat_add]
    generalize BitVec.ofNat 64 (8 * c.flow.allocas.length) = x
    generalize BitVec.ofNat 64 (8 * c.saved.length) = y
    bv_omega
  · rw [stackTop, hrbp, bytesAbove, BitVec.ofNat_add, BitVec.ofNat_add]
    generalize BitVec.ofNat 64 (8 * (c.function.params.length - Reg.args.length)) = x
    bv_omega
  · have hsp₀ : cpu.regs .rsp = cpu.regs .rsp - BitVec.ofNat 64 0 := by simp
    have hroom' : cpu.Room (c.stackTop cpu) (0 + 1) := room_of_below (by omega) hsp₀
    have hwithin : Within (d.regs .rsp) (c.stackTop cpu) b :=
      hin.rsp ▸ within_of_below (by omega) hb
    rw [congrFun hkeep.mem b, hs.mem b hwithin, hin.mem]
    exact (Cpu.spares_push hroom' _).mem b hb

/-! ## Points -/

section
variable (hc : c.Faithful) (hroom : c.Roomy)
include hc hroom

theorem Executes.framed (h : c.Executes cpu past n e) : c.Framed (c.stackTop cpu) e := by
  induction h with
  | start hrun => exact (framed_entryCode (hroom.fits hc) hrun).1
  | visit _ hcode hcomp _ ih =>
    obtain ⟨p, s, s', hp, hs, hsel⟩ := hcode
    exact Framed.completes hp hs hsel (hroom p (List.mem_of_getElem? hp)) ih hcomp

/-- Control goes where the function says. -/
theorem next_of_completes {top : Word} (hf : c.Framed top e) (hcode : c.CodeAt n code)
    (h : Completes top code e o e') (hl : c.Leads n o m) : c.function.Next n m := by
  obtain ⟨p, s, s', hp, hs, hsel⟩ := hcode
  have hbody : c.function.body[n]? = some p.instr := by
    rw [← hc.flow.instrs, List.getElem?_map, hp]
    rfl
  refine ⟨p.instr, hbody, ?_⟩
  rcases outcome_of_completes hp hs hsel (hroom p (List.mem_of_getElem? hp)) hf h with
    ⟨hop, rfl⟩ | ⟨hop, ⟨rfl, l, htarget, hstart⟩ | ⟨l, htarget, rfl⟩⟩ | ⟨hret, hbr, rfl⟩
  · cases hl
  · cases hl
    rw [hop]
    exact ⟨l, htarget, (hc.flow.start l).symm.trans hstart⟩
  · generalize hlabel : c.blockLabel l = t at hl
    cases hl with
    | @jump l' m hstart =>
      cases hlabel
      rw [hop]
      exact ⟨l, htarget, (hc.flow.start l).symm.trans hstart⟩
  · cases hl
    split
    · next hop => exact absurd hop hret
    · next hop => exact absurd hop hbr
    · rfl

/-- The points of an execution are a path. -/
theorem Executes.path (h : c.Executes cpu past n e) :
    c.function.Path ((past.map Prod.fst).reverse ++ [n]) := by
  induction h with
  | start _ => exact ⟨rfl, List.isChain_singleton _⟩
  | @visit past n m e e' code o hex hcode hcomp hl ih =>
    have hnext := next_of_completes hc hroom (hex.framed hc hroom) hcode hcomp hl
    obtain ⟨hhead, hchain⟩ := ih
    rw [List.map_cons, List.reverse_cons]
    refine ⟨by rw [List.head?_append, hhead]; rfl, ?_⟩
    refine List.isChain_append.mpr ⟨hchain, List.isChain_singleton _, fun x hx y hy => ?_⟩
    simp only [List.getLast?_append, List.getLast?_singleton, Option.some_or, Option.mem_def,
      Option.some.injEq, List.head?_cons] at hx hy
    exact hx ▸ hy ▸ hnext

end

/-! ## Lines -/

/-- Control has come to the epilogue in the state `b`, behind the last point or by a jump. -/
inductive Finishes (c : Context) (cpu : Cpu) : Cpu → Prop where
  | behind {past : List (Nat × Cpu)} {n : Nat} {b : Cpu} : c.Executes cpu past n b →
      c.flow.points.length ≤ n → c.Finishes cpu b
  | jump {past : List (Nat × Cpu)} {n : Nat} {e b : Cpu} {code : List Instr} :
      c.Executes cpu past n e → c.CodeAt n code →
      Completes (c.stackTop cpu) code e (some (.exit c.function.name)) b → c.Finishes cpu b

/-- Where a run of the emitted lines can stand. -/
inductive Stands (c : Context) (cpu : Cpu) : Machine → Prop where
  | silent {e : Cpu} {line : Line} {lines : List Line} : line.isSilent → c.Stands cpu ⟨e, lines⟩ →
      c.Stands cpu ⟨e, line :: lines⟩
  | entry {e : Cpu} {i : Instr} {done rest : List Instr} {body : List Line} :
      c.entryCode = done ++ i :: rest → run done cpu = some e →
      c.emitPoints c.initial c.flow.points.zipIdx = .ok body →
      c.Stands cpu ⟨e, .code i :: (rest.map .code ++ (body ++ c.epilogue))⟩
  | inside {past : List (Nat × Cpu)} {n : Nat} {p : Point} {s s' : State} {b e : Cpu} {i : Instr}
      {code rest : List Instr} {tail : List Line} : c.Executes cpu past n b →
      c.flow.points[n]? = some p → c.StateAt n s → c.select s n p.instr = .ok (s', code) →
      c.emitPoints s' (c.flow.points.zipIdx.drop (n + 1)) = .ok tail →
      Passes (c.stackTop cpu) code b (i :: rest) e →
      c.Stands cpu ⟨e, .code i :: (rest.map .code ++ (tail ++ c.epilogue))⟩
  | exit {b e : Cpu} {done rest : List Instr} : c.Finishes cpu b → c.exitCode = done ++ rest →
      run done b = some e → c.Stands cpu ⟨e, rest.map .code⟩

theorem stands_of_silent {silent lines : List Line} (h : ∀ line ∈ silent, line.isSilent)
    (hs : c.Stands cpu ⟨e, lines⟩) : c.Stands cpu ⟨e, silent ++ lines⟩ := by
  induction silent with
  | nil => exact hs
  | cons line silent ih =>
    rw [List.forall_mem_cons] at h
    exact .silent h.1 (ih h.2)

theorem stands_of_finishes (h : c.Finishes cpu e) : c.Stands cpu ⟨e, c.epilogue⟩ :=
  .silent rfl (.exit h (List.nil_append _).symm (run_nil e))

/-- Control has come to point `n`, and goes on until it meets an instruction. -/
theorem stands_of_arrival {past : List (Nat × Cpu)} {n : Nat} {s : State} {lines : List Line}
    (h : c.Executes cpu past n e) (hs : c.StateAt n s)
    (hlines : c.emitPoints s (c.flow.points.zipIdx.drop n) = .ok lines) :
    c.Stands cpu ⟨e, lines ++ c.epilogue⟩ := by
  by_cases hn : n < c.flow.points.length
  · have hp := List.getElem?_eq_getElem hn
    rw [drop_zipIdx hp] at hlines
    obtain ⟨s', code, tail, hsel, htail, rfl⟩ := emitPoints_cons.mp hlines
    rw [List.append_assoc, List.append_assoc]
    refine stands_of_silent (c.isSilent_heading _ _) ?_
    cases code with
    | nil =>
      have hnext := h.visit ⟨_, s, s', hp, hs, hsel⟩ (completes_nil.mpr ⟨rfl, rfl⟩) .next
      exact stands_of_arrival hnext (hs.succ hp hsel) htail
    | cons i rest => exact .inside h hp hs hsel htail .refl
  · rw [List.drop_eq_nil_of_le (by simpa using hn)] at hlines
    cases hlines
    exact stands_of_finishes (.behind h (Nat.le_of_not_lt hn))
termination_by c.flow.points.length - n

theorem stands_of_passes {b : Cpu} {rest : List Instr} {tail : List Line}
    (h : c.Executes cpu past n b) (hp : c.flow.points[n]? = some p) (hs : c.StateAt n s)
    (hsel : c.select s n p.instr = .ok (s', code))
    (htail : c.emitPoints s' (c.flow.points.zipIdx.drop (n + 1)) = .ok tail)
    (hpass : Passes (c.stackTop cpu) code b rest e) :
    c.Stands cpu ⟨e, rest.map .code ++ (tail ++ c.epilogue)⟩ := by
  cases rest with
  | nil =>
    have hnext := h.visit ⟨p, s, s', hp, hs, hsel⟩ ⟨[], hpass, .done⟩ .next
    exact stands_of_arrival hnext (hs.succ hp hsel) htail
  | cons i rest => exact .inside h hp hs hsel htail hpass

theorem stands_of_entry {done rest : List Instr} {body : List Line}
    (hcode : c.entryCode = done ++ rest) (hrun : run done cpu = some e)
    (hbody : c.emitPoints c.initial c.flow.points.zipIdx = .ok body) :
    c.Stands cpu ⟨e, rest.map .code ++ (body ++ c.epilogue)⟩ := by
  cases rest with
  | nil =>
    rw [List.append_nil] at hcode
    exact stands_of_arrival (.start (hcode ▸ hrun)) .zero hbody
  | cons i rest => exact .entry hcode hrun hbody

/-- A jump out of the code of a point comes to a block or to the epilogue. -/
theorem stands_of_jump (hc : c.Faithful) (hroom : c.Roomy) {body lines : List Line}
    {b : Cpu} {t : Label} (hbody : c.emitPoints c.initial c.flow.points.zipIdx = .ok body)
    (h : c.Executes cpu past n b) (hcode : c.CodeAt n code)
    (hcomp : Completes (c.stackTop cpu) code b (some t) e)
    (ht : target? (c.prologue ++ (body ++ c.epilogue)) t = some lines) :
    c.Stands cpu ⟨e, lines⟩ := by
  have ⟨p, s, s', hp, hs, hsel⟩ := hcode
  have hmem := List.mem_of_getElem? hp
  rcases outcome_of_completes hp hs hsel (hroom p hmem) (h.framed hc hroom) hcomp with
    ⟨-, he⟩ | ⟨-, ⟨he, -⟩ | ⟨l, htarget, he⟩⟩ | ⟨-, -, he⟩
  · obtain rfl := Option.some.inj he
    obtain rfl := Option.some.inj ((target_exit hbody).symm.trans ht)
    exact stands_of_finishes (.jump h hcode hcomp)
  · cases he
  · obtain rfl := Option.some.inj he
    have hinstr := (Function.mem_body.mp (hc.flow.instr_mem_body hmem)).1
    obtain ⟨m, hm⟩ := Option.isSome_iff_exists.mp
      (Function.start?_isSome.mpr ((hc.wellFormed.shaped _ hinstr).targets l htarget))
    rw [← hc.flow.start l] at hm
    obtain ⟨q, hq⟩ : ∃ q, c.flow.points[m]? = some q :=
      ⟨_, List.getElem?_eq_getElem (hc.start_lt hm)⟩
    obtain ⟨u, u', code', before, tail, hu, hsel', hbefore, htail, rfl⟩ := exists_code hbody hq
    obtain ⟨silent, hsilent, ht'⟩ := exists_target hc hm hbefore q.instr code' tail
    obtain rfl := Option.some.inj (ht'.symm.trans ht)
    exact stands_of_silent hsilent
      (stands_of_passes (h.visit hcode hcomp (.jump hm)) hq hu hsel' htail .refl)
  · cases he

theorem isDirect_entryCode (c : Context) : ∀ i ∈ c.entryCode, i.isDirect := by
  rw [entryCode, List.forall_mem_append, List.forall_mem_append, List.forall_mem_map,
    paramCopies_eq, List.forall_mem_map]
  exact ⟨⟨by simp [Instr.isDirect], fun _ _ => rfl⟩, fun _ _ => rfl⟩

theorem isControl_exitCode {i : Instr} (h : i ∈ c.exitCode) : i.isControl = false ∨ i = .ret := by
  simp only [exitCode, List.mem_append, List.mem_map, List.mem_cons, List.not_mem_nil,
    or_false] at h
  rcases h with ⟨_, -, rfl⟩ | rfl | rfl | rfl
  · exact .inl rfl
  · exact .inl rfl
  · exact .inl rfl
  · exact .inr rfl

/-- Nothing is taken off the stack between the code of a call and the next point. -/
theorem released_append {tail : List Line} {ps : List (Point × Nat)}
    (h : c.emitPoints s ps = .ok tail) (rest : List Instr) :
    released (rest.map .code ++ (tail ++ c.epilogue)) = released (rest.map .code) := by
  cases rest with
  | nil => exact ((tight_emitPoints h).append c.tight_epilogue).released_eq_zero
  | cons i rest => rfl

section
variable (hc : c.Faithful) (hroom : c.Roomy) {body : List Line}
  (hbody : c.emitPoints c.initial c.flow.points.zipIdx = .ok body)
include hc hroom hbody

theorem Stands.step {m m' : Machine} (h : c.Stands cpu m)
    (hstep : Step (c.stackTop cpu) (c.prologue ++ (body ++ c.epilogue)) m m') :
    c.Stands cpu m' := by
  cases h with
  | silent hl hs =>
    cases hstep with
    | line h _ =>
      rw [step_silent hl] at h
      cases h
      exact hs
    | call => cases hl
  | @entry e i done rest body hcode hrun hb =>
    have hi : i.isDirect := c.isDirect_entryCode i (by simp [hcode])
    obtain ⟨d, hd, -, rfl⟩ := hstep.exec (Instr.isControl_of_isDirect hi)
    have hcode : c.entryCode = (done ++ [i]) ++ rest := by simpa using hcode
    refine stands_of_entry hcode ?_ hb
    rw [run_append, hrun, Option.bind_some, run_cons, hd]
    rfl
  | @inside past n p s s' b e i code rest tail hex hp hs hsel htail hpass =>
    rcases hstep.passes_or_leaves (released_append htail rest) with
      ⟨d, hd, rfl⟩ | ⟨t, lines, hl, ht, rfl⟩
    · exact stands_of_passes hex hp hs hsel htail (hpass.trans hd)
    · exact stands_of_jump hc hroom hbody hex ⟨p, s, s', hp, hs, hsel⟩ ⟨_, hpass, hl⟩ ht
  | @exit b e done rest hfin hcode hrun =>
    cases rest with
    | nil =>
      cases hstep with
      | line h _ => cases h
    | cons i rest =>
      rcases isControl_exitCode (c := c) (i := i) (by simp [hcode]) with hi | rfl
      · obtain ⟨d, hd, -, rfl⟩ := hstep.exec hi
        have hcode : c.exitCode = (done ++ [i]) ++ rest := by simpa using hcode
        refine .exit hfin hcode ?_
        rw [run_append, hrun, Option.bind_some, run_cons, hd]
        rfl
      · exact absurd hstep not_step_ret

/-- Every run of the emitted lines stands somewhere. -/
theorem stands_of_steps {m : Machine} (h : Steps (c.stackTop cpu)
      (c.prologue ++ (body ++ c.epilogue)) ⟨cpu, c.prologue ++ (body ++ c.epilogue)⟩ m) :
    c.Stands cpu m := by
  induction h with
  | refl =>
    rw [prologue, List.append_assoc]
    exact stands_of_silent (by simp [Line.isSilent])
      (stands_of_entry (List.nil_append _).symm (run_nil cpu) hbody)
  | tail _ hstep ih => exact ih.step hc hroom hbody hstep

end

theorem Stands.accounts {i : Instr} {rest : List Line} (h : c.Stands cpu ⟨e, .code i :: rest⟩) :
    i ∈ c.entryCode ∨ i ∈ c.exitCode ∨ ∃ past n b code later, c.Executes cpu past n b ∧
      c.CodeAt n code ∧ Passes (c.stackTop cpu) code b (i :: later) e := by
  generalize hlines : Line.code i :: rest = lines at h
  cases h with
  | silent hl _ =>
    cases hlines
    cases hl
  | entry hcode _ _ =>
    cases hlines
    exact .inl (by simp [hcode])
  | inside hex hp hs hsel _ hpass =>
    cases hlines
    exact .inr (.inr ⟨_, _, _, _, _, hex, ⟨_, _, _, hp, hs, hsel⟩, hpass⟩)
  | @exit b e done rest' _ hcode _ =>
    obtain ⟨j, later, rfl, hj, -⟩ := List.map_eq_cons_iff.mp hlines.symm
    cases hj
    exact .inr (.inl (by simp [hcode]))

end Context

end X86

/-- What a compilation consists of whose frame fits into memory. The passes leave its runs where
those of the emitted lines stand. -/
theorem Function.exists_standing {f : Function} {config : Config} {out : CompiledFunction}
    (hv : f.verify = .ok ()) (hfits : f.Fits) (h : f.compile config = .ok out) :
    ∃ c : X86.Context, c.Faithful ∧ c.Roomy ∧ c.function = f ∧ c.config = config ∧
      f.analyze = .ok (c.flow, c.liveness, c.flow.interference) ∧ out.report.coloring = c.coloring ∧
      (∀ cpu e i rest, X86.Steps (c.stackTop cpu) out.lines ⟨cpu, out.lines⟩ ⟨e, .code i :: rest⟩ →
        ∃ rest', c.Stands cpu ⟨e, .code i :: rest'⟩) ∧
      ∃ body, c.emitPoints c.initial c.flow.points.zipIdx = .ok body ∧
        out.lines = if config.optimize then
            X86.Peephole.runAll X86.Line.shape (c.prologue ++ (body ++ c.epilogue))
          else c.prologue ++ (body ++ c.epilogue) := by
  obtain ⟨c, hc, rfl, rfl, ha, hcol, lines, hl, hout⟩ := exists_context (wellFormed_of_verify hv) h
  have hlen : c.flow.allocas.length ≤ c.function.instrs.length := by
    obtain ⟨fl, hb, ha'⟩ := analyze_of_wellFormed (wellFormed_of_verify hv)
    obtain ⟨rfl, -⟩ := Prod.mk.inj (Except.ok.inj (ha.symm.trans ha'))
    exact Flow.length_allocas_le hb
  have hroom := X86.Context.roomy_of_function hc hfits hlen
  have ho := X86.Context.orderly_emit hc hl
  obtain ⟨body, hbody, rfl⟩ := X86.Context.emit_ok hl
  refine ⟨c, hc, hroom, rfl, rfl, ha, hcol, fun cpu e i rest hsteps => ?_, body, hbody, hout⟩
  rw [hout] at hsteps
  split at hsteps
  · obtain ⟨rest', hsteps⟩ := X86.Peephole.exists_steps_of_runAll ho hsteps
    exact ⟨rest', X86.Context.stands_of_steps hc hroom hbody hsteps⟩
  · exact ⟨rest, X86.Context.stands_of_steps hc hroom hbody hsteps⟩

/-- The runs of a compilation are executions. -/
theorem Function.exists_accounting {f : Function} {config : Config} {out : CompiledFunction}
    (hv : f.verify = .ok ()) (hfits : f.Fits) (h : f.compile config = .ok out) :
    ∃ c : X86.Context, c.Faithful ∧ c.Roomy ∧ c.function = f ∧ c.config = config ∧
      f.analyze = .ok (c.flow, c.liveness, c.flow.interference) ∧ out.report.coloring = c.coloring ∧
      c.Accounts out.lines ∧ ∃ body, c.emitPoints c.initial c.flow.points.zipIdx = .ok body ∧
        out.lines = if config.optimize then
            X86.Peephole.runAll X86.Line.shape (c.prologue ++ (body ++ c.epilogue))
          else c.prologue ++ (body ++ c.epilogue) := by
  obtain ⟨c, hc, hroom, hf, hconfig, ha, hcol, hstands, hbody⟩ := exists_standing hv hfits h
  refine ⟨c, hc, hroom, hf, hconfig, ha, hcol, fun cpu e i rest hsteps => ?_, hbody⟩
  obtain ⟨rest', hstand⟩ := hstands cpu e i rest hsteps
  exact hstand.accounts

end IrAsm
