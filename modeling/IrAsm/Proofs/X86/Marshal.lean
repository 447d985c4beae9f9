import IrAsm.Proofs.X86.Stack

/-!
# Passing arguments

A call pushes the registers that it saves, moves the first arguments to their registers and pushes
the others, the last one first. `c.Stacked changed n d`: from `c` to `d` there are `n` more words on
the stack, and only registers of `changed` differ else. The places that arguments are read from lie
outside these words and are no argument registers (`Safe`), so each step finds its source as it was
before the first one.

The callee looks for its arguments where they were put: behind the return address and the frame
pointer, which are pushed after them.
-/

namespace IrAsm

namespace X86

/-! ## Pushes and moves -/

/-- Pushes, and moves to registers of `changed`. -/
def Instr.Marshals (changed : List Reg) : Instr → Prop
  | .push _ => True
  | .mov _ (.reg r) => r ∈ changed
  | _ => False

/-- What a push or a move reads. -/
def Instr.source? : Instr → Option Loc
  | .push src | .mov src _ => some src
  | _ => none

def Instr.isPush : Instr → Bool
  | .push _ => true
  | _ => false

structure Cpu.Stacked (c : Cpu) (changed : List Reg) (n : Nat) (d : Cpu) : Prop where
  rsp : d.regs .rsp = c.regs .rsp - BitVec.ofNat 64 (8 * n)
  regs : ∀ r ∉ changed, r ≠ .rsp → d.regs r = c.regs r
  mem : ∀ b, ¬ Within (c.regs .rsp - BitVec.ofNat 64 (8 * n)) (c.regs .rsp) b → d.mem b = c.mem b
  globals : d.globals = c.globals

/-- What is read at this place changes neither with the registers of arguments nor with `n` words
that are pushed. -/
def Loc.Safe (c : Cpu) (n : Nat) : Loc → Prop
  | .imm _ => True
  | .reg r => r ∉ Reg.args ∧ r ≠ .rsp
  | .frame d => Off (c.regs .rsp - BitVec.ofNat 64 (8 * n)) (c.regs .rsp)
      (c.regs .rbp + BitVec.ofInt 64 d)
  | .global name => Off (c.regs .rsp - BitVec.ofNat 64 (8 * n)) (c.regs .rsp) (c.globals name)
  | .indirect _ => False

theorem countP_pushes (locs : List Loc) :
    (locs.map Instr.push).countP Instr.isPush = locs.length := by
  rw [List.countP_map]
  exact List.countP_eq_length.mpr fun _ _ => rfl

theorem marshals_pushes (changed : List Reg) (locs : List Loc) :
    ∀ i ∈ locs.map Instr.push, i.Marshals changed := by
  rw [List.forall_mem_map]
  exact fun _ _ => trivial

section
variable {c d d' : Cpu} {changed : List Reg} {m n : Nat} {l : Loc}

theorem Within.mono {sp b : Word} (h : Within (sp - BitVec.ofNat 64 (8 * m)) sp b) (hmn : m ≤ n)
    (hn : 8 * n < 2 ^ 64) : Within (sp - BitVec.ofNat 64 (8 * n)) sp b := by
  unfold Within at *
  bv_omega

namespace Cpu.Stacked

theorem refl (c : Cpu) (changed : List Reg) : c.Stacked changed 0 c :=
  ⟨by simp, fun _ _ _ => rfl, fun _ _ => rfl, rfl⟩

theorem push (h : c.Stacked changed n d) (hn : 8 * (n + 1) < 2 ^ 64) (w : Word) :
    c.Stacked changed (n + 1) (d.push w) where
  rsp := by
    rw [rsp_push, h.rsp]
    bv_omega
  regs r hr hsp := by
    rw [← h.regs r hr hsp]
    simp [Cpu.push, hsp]
  mem b hb := by
    have hold : ¬ Within (c.regs .rsp - BitVec.ofNat 64 (8 * n)) (c.regs .rsp) b :=
      fun hw => hb (hw.mono n.le_succ hn)
    have hnew : ¬ InWord (d.regs .rsp - 8) b := by
      rw [h.rsp]
      unfold Within InWord at *
      bv_omega
    rw [← h.mem b hold]
    exact mem_store_of_not_inWord hnew
  globals := h.globals

theorem setReg (h : c.Stacked changed n d) {r : Reg} (hr : r ∈ changed) (hsp : r ≠ .rsp)
    (w : Word) : c.Stacked changed n (d.setReg r w) where
  rsp := by simpa [hsp.symm] using h.rsp
  regs q hq hqsp := by
    have hne : q ≠ r := fun he => hq (he ▸ hr)
    simpa [hne] using h.regs q hq hqsp
  mem := h.mem
  globals := h.globals

/-- Pushes and moves can all be done. -/
theorem run {code : List Instr} (hcode : ∀ i ∈ code, i.Marshals changed) (hsp : .rsp ∉ changed)
    (h : c.Stacked changed n d) (hn : 8 * (n + code.countP Instr.isPush) < 2 ^ 64) :
    ∃ d', X86.run code d = some d' ∧ c.Stacked changed (n + code.countP Instr.isPush) d' := by
  induction code generalizing d n with
  | nil => exact ⟨d, rfl, h⟩
  | cons i code ih =>
    rw [List.forall_mem_cons] at hcode
    obtain ⟨hi, hcode⟩ := hcode
    cases i with
    | push src =>
      rw [List.countP_cons_of_pos rfl] at hn ⊢
      obtain ⟨d', hd', h'⟩ := ih hcode (h.push (by omega) (d.read src)) (by omega)
      exact ⟨d', hd', by rwa [show n + (code.countP Instr.isPush + 1) =
        n + 1 + code.countP Instr.isPush by omega]⟩
    | mov src dst =>
      rw [List.countP_cons_of_neg (by simp [Instr.isPush])] at hn ⊢
      cases dst with
      | reg r =>
        have hne : r ≠ .rsp := fun he => hsp (he ▸ hi)
        obtain ⟨d', hd', h'⟩ := ih hcode (h.setReg hi hne (d.read src)) hn
        exact ⟨d', by rw [run_cons, exec_mov_reg, Option.bind_some, hd'], h'⟩
      | _ => exact hi.elim
    | _ => exact hi.elim

theorem exists_pushes (locs : List Loc) (hsp : .rsp ∉ changed) (h : c.Stacked changed n d)
    (hn : 8 * (n + locs.length) < 2 ^ 64) :
    ∃ d', X86.run (locs.map .push) d = some d' ∧ c.Stacked changed (n + locs.length) d' := by
  rw [← countP_pushes] at hn ⊢
  exact h.run (marshals_pushes changed locs) hsp hn

/-- Pushes leave alone all other registers and all that is above. -/
theorem of_pushes {locs : List Loc} (hn : 8 * locs.length < 2 ^ 64)
    (hrun : X86.run (locs.map .push) d = some d') : d.Stacked [] locs.length d' := by
  obtain ⟨e, he, hstacked⟩ := (refl d []).exists_pushes locs List.not_mem_nil (by omega)
  obtain rfl := Option.some.inj (hrun.symm.trans he)
  rwa [Nat.zero_add] at hstacked

theorem read (h : c.Stacked Reg.args m d) (hmn : m ≤ n) (hn : 8 * n < 2 ^ 64) (hl : l.Safe c n) :
    d.read l = c.read l := by
  have hload {a : Word} (ha : Off (c.regs .rsp - BitVec.ofNat 64 (8 * n)) (c.regs .rsp) a) :
      d.load a = c.load a :=
    load_congr fun b hb => h.mem b fun hw => ha b hb (hw.mono hmn hn)
  cases l with
  | imm v => rfl
  | reg r => exact h.regs r hl.1 hl.2
  | frame e =>
    rw [Cpu.read, Cpu.read, h.regs .rbp (by decide) (by decide)]
    exact hload hl
  | global name =>
    rw [Cpu.read, Cpu.read, h.globals]
    exact hload hl
  | indirect r => exact hl.elim

/-- The words above `%rsp` are as they were. -/
theorem load (h : c.Stacked changed n d) {j : Nat} (hj : 8 * n + 8 * j + 8 ≤ 2 ^ 64) :
    d.load (c.regs .rsp + BitVec.ofNat 64 (8 * j)) =
      c.load (c.regs .rsp + BitVec.ofNat 64 (8 * j)) := by
  refine load_congr fun b hb => h.mem b ?_
  unfold Within InWord at *
  bv_omega

end Cpu.Stacked

/-- Words that are pushed one after another, from places that stay as they are. -/
theorem load_pushes {locs : List Loc} (h : c.Stacked Reg.args m d) (hmn : m + locs.length ≤ n)
    (hn : 8 * n < 2 ^ 64) (hsafe : ∀ l ∈ locs, l.Safe c n) (hrun : run (locs.map .push) d = some d')
    {j : Nat} (hj : locs[j]? = some l) :
    d'.load (c.regs .rsp - BitVec.ofNat 64 (8 * (m + j + 1))) = c.read l := by
  induction locs generalizing m d j with
  | nil => simp at hj
  | cons l₀ locs ih =>
    rw [List.length_cons] at hmn
    rw [List.forall_mem_cons] at hsafe
    rw [List.map_cons, run_cons, exec_push, Option.bind_some] at hrun
    have hpush := h.push (by omega) (d.read l₀)
    cases j with
    | zero =>
      obtain rfl := Option.some.inj hj
      -- what is pushed later lies below this word
      have hlater := Cpu.Stacked.of_pushes (by omega) hrun
      have hword := hlater.load (j := 0) (by omega)
      rw [show m + 0 + 1 = m + 1 by omega, ← hpush.rsp, ← h.read (by omega) hn hsafe.1]
      simp only [Nat.mul_zero, BitVec.add_zero] at hword
      rw [hword, Cpu.rsp_push]
      exact Cpu.load_store ..
    | succ j =>
      rw [show m + (j + 1) + 1 = m + 1 + j + 1 by omega]
      exact ih hpush (by omega) hsafe.2 hrun hj

/-- Moves to different registers, from places that stay as they are. -/
theorem regs_moves {xs : List (Loc × Reg)} (h : c.Stacked Reg.args m d) (hmn : m ≤ n)
    (hn : 8 * n < 2 ^ 64) (hsafe : ∀ x ∈ xs, x.1.Safe c n) (hargs : ∀ x ∈ xs, x.2 ∈ Reg.args)
    (hnodup : (xs.map Prod.snd).Nodup)
    (hrun : run (xs.map fun x => .mov x.1 (.reg x.2)) d = some d') :
    ∀ x ∈ xs, d'.regs x.2 = c.read x.1 := by
  induction xs generalizing d with
  | nil => simp
  | cons y xs ih =>
    rw [List.forall_mem_cons] at hsafe hargs
    rw [List.map_cons, List.nodup_cons] at hnodup
    rw [List.map_cons, run_cons, exec_mov_reg, Option.bind_some] at hrun
    have hset := h.setReg hargs.1 (Reg.ne_of_args hargs.1).1 (d.read y.1)
    rw [List.forall_mem_cons]
    refine ⟨?_, ih hset hsafe.2 hargs.2 hnodup.2 hrun⟩
    have hquiet : Quiet (xs.map Prod.snd) (xs.map fun x => .mov x.1 (.reg x.2)) := by
      rw [Quiet, List.forall_mem_map]
      exact fun x hx => List.mem_map_of_mem hx
    rw [(hquiet.run hrun).regs y.2 hnodup.1, Cpu.regs_setReg, if_pos rfl, h.read hmn hn hsafe.1]

end

/-- What is passed at an index, if the callee is called in `d`. -/
def Cpu.passed (d : Cpu) (index : Nat) : Word :=
  match Reg.args[index]? with
  | some r => d.regs r
  | none => d.load (d.regs .rsp + BitVec.ofNat 64 (8 * (index - Reg.args.length)))

namespace Sequence

/-- What a call does before the callee is called. -/
def marshal (preserved : List Reg) (args : List Loc) : List Instr :=
  (preserved.map .reg).map .push ++ ((args.zip Reg.args).map (fun x => .mov x.1 (.reg x.2)) ++
    (args.drop Reg.args.length).reverse.map .push)

variable {preserved : List Reg} {args : List Loc} {c : Cpu} {n : Nat} {l : Loc}

theorem call_eq_marshal (preserved : List Reg) (args : List Loc) (callee : String) :
    call preserved args callee = marshal preserved args ++ .call callee ::
      (release args ++ preserved.reverse.map fun r => .pop (.reg r)) := by
  simp [call_eq, marshal]

theorem marshals_moves (args : List Loc) :
    ∀ i ∈ (args.zip Reg.args).map fun x => Instr.mov x.1 (.reg x.2), i.Marshals Reg.args := by
  rw [List.forall_mem_map]
  exact fun x hx => (List.of_mem_zip hx).2

theorem countP_moves (args : List Loc) :
    ((args.zip Reg.args).map fun x => Instr.mov x.1 (.reg x.2)).countP Instr.isPush = 0 := by
  rw [List.countP_eq_zero, List.forall_mem_map]
  exact fun _ _ => Bool.false_ne_true

theorem marshals_marshal (preserved : List Reg) (args : List Loc) :
    ∀ i ∈ marshal preserved args, i.Marshals Reg.args := by
  rw [marshal, List.forall_mem_append, List.forall_mem_append]
  exact ⟨marshals_pushes _ _, marshals_moves args, marshals_pushes _ _⟩

theorem countP_marshal (preserved : List Reg) (args : List Loc) :
    (marshal preserved args).countP Instr.isPush =
      preserved.length + (args.drop Reg.args.length).length := by
  rw [marshal, List.countP_append, List.countP_append, countP_moves, countP_pushes, countP_pushes,
    List.length_map, List.length_reverse, Nat.zero_add]

/-- What is read while arguments are passed. -/
theorem safe_source (hpreserved : ∀ r ∈ preserved, (Loc.reg r).Safe c n)
    (hargs : ∀ l ∈ args, l.Safe c n) {i : Instr} (hi : i ∈ marshal preserved args)
    (hl : i.source? = some l) : l.Safe c n := by
  simp only [marshal, List.mem_append, List.mem_map] at hi
  rcases hi with ⟨_, ⟨r, hr, rfl⟩, rfl⟩ | ⟨x, hx, rfl⟩ | ⟨a, ha, rfl⟩
  · cases hl
    exact hpreserved r hr
  · cases hl
    exact hargs _ (List.of_mem_zip hx).1
  · cases hl
    exact hargs _ (List.mem_of_mem_drop (List.mem_reverse.mp ha))

section
variable (hn : 8 * (marshal preserved args).countP Instr.isPush < 2 ^ 64)
  (hargs : ∀ l ∈ args, l.Safe c ((marshal preserved args).countP Instr.isPush))
include hn hargs

/-- Each step finds its source as it was before the first one. -/
theorem source_kept
    (hpreserved : ∀ r ∈ preserved,
      (Loc.reg r).Safe c ((marshal preserved args).countP Instr.isPush))
    {before later : List Instr} {i : Instr} (hsplit : marshal preserved args = before ++ i :: later)
    (hl : i.source? = some l) : ∃ d, run before c = some d ∧ d.read l = c.read l := by
  have hsub : before.Sublist (marshal preserved args) := hsplit ▸ List.sublist_append_left ..
  have hcount : before.countP Instr.isPush ≤ _ := hsub.countP_le
  obtain ⟨d, hd, hstacked⟩ := (Cpu.Stacked.refl c Reg.args).run
    (fun j hj => marshals_marshal preserved args j (hsub.subset hj)) (by decide) (by omega)
  refine ⟨d, hd, hstacked.read (by omega) hn ?_⟩
  exact safe_source hpreserved hargs (by rw [hsplit]; simp) hl

omit hargs in
/-- The states after each part of the sequence. -/
theorem exists_parts :
    ∃ c₁ c₂ d, run ((args.zip Reg.args).map fun x => .mov x.1 (.reg x.2)) c₁ = some c₂ ∧
      run ((args.drop Reg.args.length).reverse.map .push) c₂ = some d ∧
    run (marshal preserved args) c = some d ∧ c.Stacked Reg.args preserved.length c₁ ∧
    c.Stacked Reg.args preserved.length c₂ := by
  rw [countP_marshal] at hn
  obtain ⟨c₁, h₁, hs₁⟩ :=
    (Cpu.Stacked.refl c Reg.args).exists_pushes (preserved.map .reg) (by decide)
      (by rw [List.length_map]; omega)
  rw [List.length_map, Nat.zero_add] at hs₁
  obtain ⟨c₂, h₂, hs₂⟩ := hs₁.run (marshals_moves args) (by decide) (by rw [countP_moves]; omega)
  rw [countP_moves, Nat.add_zero] at hs₂
  obtain ⟨d, h₃, -⟩ := hs₂.exists_pushes (args.drop Reg.args.length).reverse (by decide)
    (by rw [List.length_reverse]; omega)
  refine ⟨c₁, c₂, d, h₂, h₃, ?_, hs₁, hs₂⟩
  rw [marshal, run_append, h₁, Option.bind_some, run_append, h₂, Option.bind_some, h₃]

/-- When the callee is called, the arguments are passed. -/
theorem exists_marshal : ∃ d, run (marshal preserved args) c = some d ∧
    ∀ (j : Nat) (l : Loc), args[j]? = some l → d.passed j = c.read l := by
  obtain ⟨c₁, c₂, d, hmoves, hpushes, hrun, hs₁, hs₂⟩ := exists_parts hn
  have hcount := countP_marshal preserved args
  have hlater : c₂.Stacked [] _ d :=
    .of_pushes (by rw [List.length_reverse]; omega) hpushes
  rw [List.length_reverse] at hlater
  refine ⟨d, hrun, fun j l hl => ?_⟩
  unfold Cpu.passed
  cases hr : Reg.args[j]? with
  | some r =>
    have hx : (l, r) ∈ args.zip Reg.args :=
      List.mem_of_getElem? (List.getElem?_zip_eq_some.mpr ⟨hl, hr⟩)
    have hnodup : ((args.zip Reg.args).map Prod.snd).Nodup := by
      rw [List.zip_eq_zip_take_min, List.map_snd_zip (by simp)]
      exact (List.take_sublist ..).nodup (by decide)
    dsimp only
    rw [hlater.regs r List.not_mem_nil (Reg.ne_of_args (List.mem_of_getElem? hr)).1]
    exact regs_moves hs₁ (by omega) hn (fun x hx => hargs _ (List.of_mem_zip hx).1)
      (fun x hx => (List.of_mem_zip hx).2) hnodup hmoves (l, r) hx
  | none =>
    have hle : Reg.args.length ≤ j := List.getElem?_eq_none_iff.mp hr
    have hlt := (List.getElem?_eq_some_iff.mp hl).1
    have hlen : (args.drop Reg.args.length).length = args.length - Reg.args.length :=
      List.length_drop ..
    -- the last argument is pushed first
    have hrev : (args.drop Reg.args.length).reverse[args.length - 1 - j]? = some l := by
      rw [List.getElem?_reverse (by omega), List.getElem?_drop, ← hl]
      congr 1
      omega
    have hword := load_pushes hs₂ (by rw [List.length_reverse]; omega) hn
      (fun l hl => hargs l (List.mem_of_mem_drop (List.mem_reverse.mp hl))) hpushes hrev
    dsimp only
    rw [← hword, hlater.rsp, hs₂.rsp]
    congr 1
    bv_omega

end

end Sequence

/-! ## The callee -/

/-- Where a function finds the argument at an index, once it has set up `%rbp`. -/
def argumentPlace (index : Nat) : Loc :=
  match Reg.args[index]? with
  | some r => .reg r
  | none => .frame (16 + 8 * (index - Reg.args.length : Nat))

example : (List.range 6).map argumentPlace =
    [.reg .rdi, .reg .rsi, .reg .rdx, .reg .rcx, .frame 16, .frame 24] := by decide

theorem argumentPlace_of_le {index : Nat} (h : Reg.args.length ≤ index) :
    argumentPlace index = .frame (-Frame.argumentDepth index) := by
  have hdepth : -Frame.argumentDepth index = 16 + 8 * (index - Reg.args.length : Nat) := by
    unfold Frame.argumentDepth
    omega
  rw [argumentPlace, List.getElem?_eq_none h, hdepth]

theorem argument_push {d : Cpu} {index : Nat} (hindex : 8 * (index - Reg.args.length) + 16 ≤ 2 ^ 64)
    (ret : Word) : (d.push ret).argument index = d.passed index := by
  have hret := (Cpu.Stacked.refl d []).push (by omega) ret
  unfold Cpu.argument Cpu.passed
  cases hr : Reg.args[index]? with
  | some r => exact hret.regs r List.not_mem_nil (Reg.ne_of_args (List.mem_of_getElem? hr)).1
  | none =>
    dsimp only
    rw [← hret.load (j := index - Reg.args.length) (by omega), hret.rsp]
    congr 1
    bv_omega

/-- The return address and the frame pointer are pushed below what is passed on the stack. -/
theorem exists_enter {d : Cpu} {index : Nat} (hindex : 8 * (index - Reg.args.length) + 24 ≤ 2 ^ 64)
    (ret : Word) :
    ∃ e, run [.push (.reg .rbp), .mov (.reg .rsp) (.reg .rbp)] (d.push ret) = some e ∧
      e.read (argumentPlace index) = d.passed index := by
  have hbp := ((Cpu.Stacked.refl d []).push (by omega) ret).push (by omega) ((d.push ret).regs .rbp)
  refine ⟨_, by simp; rfl, ?_⟩
  unfold Cpu.passed argumentPlace
  cases hr : Reg.args[index]? with
  | some r =>
    obtain ⟨hsp, hne⟩ := Reg.ne_of_args (List.mem_of_getElem? hr)
    simpa [hne] using hbp.regs r List.not_mem_nil hsp
  | none =>
    have haddr : d.regs .rsp - BitVec.ofNat 64 (8 * 2) +
        BitVec.ofInt 64 (16 + 8 * (index - Reg.args.length : Nat)) =
        d.regs .rsp + BitVec.ofNat 64 (8 * (index - Reg.args.length)) := by
      rw [show (16 + 8 * (index - Reg.args.length : Nat) : Int) =
        ((16 + 8 * (index - Reg.args.length) : Nat) : Int) by omega, BitVec.ofInt_natCast]
      bv_omega
    have hword := hbp.load (j := index - Reg.args.length) (by omega)
    rw [← haddr] at hword ⊢
    rw [← hword, ← hbp.rsp]
    simp [Cpu.read, Cpu.load]

namespace Context

/-- A function that is called in `called` reads `w` for its parameter at an index. -/
structure Receives (c : Context) (called : Cpu) (index : Nat) (w : Word) : Prop where
  argument : called.argument index = w
  place : ∃ e, run [.push (.reg .rbp), .mov (.reg .rsp) (.reg .rbp)] called = some e ∧
    e.read (argumentPlace index) = w
  /-- The prologue copies the first parameters from there. -/
  copied : ∀ q r, c.function.params[index]? = some q → index < Reg.args.length →
    c.colored q.name = .ok r → ∃ before later e,
      c.entryCode = before ++ .mov (argumentPlace index) (.reg r) :: later ∧
      run before called = some e ∧ e.read (argumentPlace index) = w
  /-- The others are read there where they are used. -/
  stacked : ∀ (s : State) (x : String), c.stackParam? x = some index → s.known[x]? = none →
    c.register s x = .ok (argumentPlace index)

variable {c : Context}

/-- The prologue changes no register of an argument before it copies it. -/
theorem exists_copy {index : Nat} {q : Param} {arg r : Reg}
    (hq : c.function.params[index]? = some q) (ha : Reg.args[index]? = some arg)
    (hr : c.colored q.name = .ok r) (cpu : Cpu) :
    ∃ before later e, c.entryCode = before ++ .mov (.reg arg) (.reg r) :: later ∧
      run before cpu = some e ∧ e.regs arg = cpu.regs arg := by
  obtain ⟨hsp, hbp⟩ := Reg.ne_of_args (List.mem_of_getElem? ha)
  obtain ⟨before, later, hcopies, -⟩ := exists_copies_split hq ha hr
  obtain ⟨d, hd, hregs⟩ := c.run_setupCode cpu
  have hother : ∀ x ∈ before, x.2 ≠ arg := fun x hx he =>
    c.copies_disjoint (arg, r) (by simp [hcopies]) x (by simp [hcopies, hx]) he.symm
  refine ⟨c.setupCode ++ before.map fun x => .mov (.reg x.1) (.reg x.2),
    later.map fun x => .mov (.reg x.1) (.reg x.2), d.copyAll before, ?_, ?_,
    (Cpu.regs_copyAll_of_ne hother d).trans (hregs arg hsp hbp)⟩
  · rw [entryCode_eq, paramCopies_eq, hcopies, List.map_append, List.map_cons, List.append_assoc]
  · rw [run_append, hd, Option.bind_some, run_copies]

theorem receives_push (c : Context) {d : Cpu} {index : Nat}
    (hindex : 8 * (index - Reg.args.length) + 24 ≤ 2 ^ 64) (ret : Word) :
    c.Receives (d.push ret) index (d.passed index) where
  argument := argument_push (by omega) ret
  place := exists_enter hindex ret
  copied q r hq hlt hr := by
    have ha : Reg.args[index]? = some Reg.args[index] := List.getElem?_eq_getElem hlt
    have harg : (d.push ret).argument index = d.passed index := argument_push (by omega) ret
    rw [Cpu.argument, ha] at harg
    rw [argumentPlace, ha]
    obtain ⟨before, later, e, hcode, hrun, he⟩ := exists_copy hq ha hr (d.push ret)
    exact ⟨before, later, e, hcode, hrun, he.trans harg⟩
  stacked s x hx hk := by
    rw [argumentPlace_of_le (stackParam?_bounds hx).1, register, hk, hx]

end Context

/-! ## The caller -/

/-- From `cpu`, each step of the sequence finds its source as it was at first, and the function that
is called then reads the values of `args` for its parameters. -/
structure Sequence.Delivers (callee : Context) (cpu : Cpu) (preserved : List Reg)
    (args : List Loc) : Prop where
  kept : ∀ before i later l, marshal preserved args = before ++ i :: later → i.source? = some l →
    ∃ d, run before cpu = some d ∧ d.read l = cpu.read l
  received : ∃ d, run (marshal preserved args) cpu = some d ∧ ∀ ret index l, args[index]? = some l →
    callee.Receives (d.push ret) index (cpu.read l)

theorem Within.not_below {sp top b : Word} {n : Nat} (h : Within sp top b)
    (hroom : (top - sp).toNat + 8 * n < 2 ^ 64) : ¬ Within (sp - BitVec.ofNat 64 (8 * n)) sp b := by
  unfold Within at *
  bv_omega

theorem safe_of_palette {r : Reg} (h : r ∈ Reg.palette) (cpu : Cpu) (n : Nat) :
    (Loc.reg r).Safe cpu n := by
  refine ⟨fun ha => Reg.not_mem_palette_of_args ha h, ?_⟩
  rintro rfl
  exact absurd h (by decide)

namespace Context

/-- The addresses of the globals that an instruction names are kept apart from `n` words below
`%rsp`. -/
def Shelters (cpu : Cpu) (n : Nat) (i : IrAsm.Instr) : Prop :=
  ∀ name, .global name ∈ i.operands →
    Off (cpu.regs .rsp - BitVec.ofNat 64 (8 * n)) (cpu.regs .rsp) (cpu.globals name)

variable {c callee : Context} {s s' : State} {top : Word} {cpu : Cpu} {n k : Nat} {i : IrAsm.Instr}
  {code : List Instr}

theorem safe_of_value {a : Operand} {l : Loc} (hfits : c.Fits k) (hf : c.Framed top cpu)
    (hshelter : Shelters cpu k i) (ha : a ∈ i.operands) (hv : c.value s a = .ok l) :
    l.Safe cpu k := by
  cases a with
  | imm v =>
    cases hv
    trivial
  | reg x =>
    rcases register_cases hv with ⟨v, -, rfl⟩ | ⟨-, ⟨index, hindex, rfl⟩ | ⟨-, -, r, hr, rfl⟩⟩
    · trivial
    · obtain ⟨hle, hlt⟩ := stackParam?_bounds hindex
      have hd : c.InFrame (-Frame.argumentDepth index) := FrameWord.inFrame (.argument hle hlt)
      exact fun b hb => (hf.within hfits hd hb).not_below (hf.room hfits)
    · exact safe_of_palette (mem_palette_of_colored hr) cpu k
  | global name =>
    cases hv
    exact hshelter name ha
  | _ => cases hv

theorem safe_preserved : ∀ r ∈ c.preserved s n i, (Loc.reg r).Safe cpu k := fun _ hr =>
  let ⟨_, _, _, _, hreg⟩ := mem_preserved.mp hr
  safe_of_palette (mem_palette_of_register hreg) cpu k

/-- The code of a call passes the arguments to whatever function is called. -/
theorem exists_delivers (hfits : c.Fits (Reg.callerSaved.length + i.operands.length + 1))
    (hsel : c.selectCall s n i = .ok (s', code)) (callee : Context) :
    ∃ args name rest, i.operands.dropLast.mapM (c.value s) = .ok args ∧
      code = Sequence.marshal (c.preserved s n i) args ++ .call name :: rest ∧
      ∀ top cpu, c.Framed top cpu →
        Shelters cpu ((Sequence.marshal (c.preserved s n i) args).countP Instr.isPush) i →
        Sequence.Delivers callee cpu (c.preserved s n i) args := by
  obtain ⟨args, name, tail, hargs, -, rfl, -⟩ := selectCall_ok hsel
  refine ⟨args, name, _, hargs, by rw [Sequence.call_eq_marshal, List.append_assoc]; rfl,
    fun top cpu hf hshelter => ?_⟩
  have hlen : args.length = i.operands.length - 1 := by
    rw [← (mapM_ok_iff.mp hargs).length_eq, List.length_dropLast]
  have hpreserved : (c.preserved s n i).length ≤ _ := length_preserved_le
  have hcount := Sequence.countP_marshal (c.preserved s n i) args
  rw [List.length_drop] at hcount
  have hroom : c.Fits ((Sequence.marshal (c.preserved s n i) args).countP Instr.isPush) :=
    hfits.mono (by omega)
  have hbound := hfits
  unfold Fits bytesAbove at hbound
  have hsafe : ∀ l ∈ args,
      l.Safe cpu ((Sequence.marshal (c.preserved s n i) args).countP Instr.isPush) := by
    intro l hl
    obtain ⟨a, ha, hv⟩ := exists_of_mem_mapM hargs hl
    exact safe_of_value hroom hf hshelter (List.mem_of_mem_dropLast ha) hv
  constructor
  · intro before j later l hsplit hl
    exact Sequence.source_kept (by omega) hsafe safe_preserved hsplit hl
  · obtain ⟨d, hd, hpassed⟩ := Sequence.exists_marshal (by omega) hsafe
    refine ⟨d, hd, fun ret index l hl => ?_⟩
    have hlt := (List.getElem?_eq_some_iff.mp hl).1
    exact hpassed index l hl ▸ callee.receives_push (by omega) ret

/-- The passes leave the code of a point where it is, if there is nothing in it that they delete. -/
theorem infix_of_point {p : Point} {lines out : List Line} (hl : c.emit = .ok lines)
    (hout : out = if c.config.optimize then Peephole.runAll Line.shape lines else lines)
    (hp : c.flow.points[n]? = some p)
    (hshape : ∀ s s' code, c.select s n p.instr = .ok (s', code) →
      ∀ line ∈ code.map Line.code, line.shape = .other) :
    ∃ s s' code, c.StateAt n s ∧ c.select s n p.instr = .ok (s', code) ∧
      code.map .code <:+: out := by
  obtain ⟨body, hb, rfl⟩ := emit_ok hl
  obtain ⟨s, s', code, before, tail, hs, hsel, -, -, rfl⟩ := exists_code hb hp
  refine ⟨s, s', code, hs, hsel, ?_⟩
  have hlines : c.prologue ++
      (before ++ (c.heading n p.instr ++ (code.map .code ++ tail)) ++ c.epilogue) =
        c.prologue ++ before ++ c.heading n p.instr ++
          (code.map .code ++ (tail ++ c.epilogue)) := by
    simp only [List.append_assoc]
  rw [hout, hlines]
  split
  · exact Peephole.infix_runAll (hshape s s' code hsel) ..
  · exact ⟨_, _, List.append_assoc ..⟩

theorem infix_of_call {p : Point} {lines out : List Line} (hl : c.emit = .ok lines)
    (hout : out = if c.config.optimize then Peephole.runAll Line.shape lines else lines)
    (hp : c.flow.points[n]? = some p) (hcall : p.instr.opcode = .call) :
    ∃ s s' code, c.StateAt n s ∧ c.selectCall s n p.instr = .ok (s', code) ∧
      code.map .code <:+: out := by
  have hselect (s : State) : c.select s n p.instr = c.selectCall s n p.instr := by
    simp only [select, hcall]
  obtain ⟨s, s', code, hs, hsel, hinfix⟩ :=
    infix_of_point hl hout hp fun s _ _ hsel => shape_selectCall ((hselect s).symm.trans hsel)
  exact ⟨s, s', code, hs, (hselect s).symm.trans hsel, hinfix⟩

theorem prologue_prefix {lines out : List Line} (hl : c.emit = .ok lines)
    (hout : out = if c.config.optimize then Peephole.runAll Line.shape lines else lines) :
    c.prologue <+: out := by
  obtain ⟨body, -, rfl⟩ := emit_ok hl
  rw [hout]
  split
  · obtain ⟨rest, hrest⟩ := Peephole.exists_runAll_append c.shape_prologue (body ++ c.epilogue)
    exact ⟨rest, hrest.symm⟩
  · exact List.prefix_append ..

/-- The code of the function was selected in this context. -/
structure Compiles (c : Context) (f : Function) (config : Config) (out : CompiledFunction) :
    Prop where
  function : c.function = f
  config : c.config = config
  analysis : f.analyze = .ok (c.flow, c.liveness, c.flow.interference)
  coloring : out.report.coloring = c.coloring
  prologue : c.prologue <+: out.lines

end Context

end X86

namespace Function

/-- A call passes each argument where the function that is called, if it has a parameter there,
looks for it: the first ones in registers, and the others in words behind its return address and
frame pointer. On the way no step changes what a later one reads. This holds for any two functions
that are compiled, whatever is live across the call and wherever the arguments come from. -/
theorem arguments_agree {f g : Function} {config config' : Config} {out out' : CompiledFunction}
    (hf : f.compile config = .ok out) (hfits : f.Fits) (hg : g.compile config' = .ok out') :
    ∃ c callee : X86.Context, c.Compiles f config out ∧ callee.Compiles g config' out' ∧
      ∀ n p, c.flow.points[n]? = some p → p.instr.opcode = .call →
        ∃ s s' args name rest, c.StateAt n s ∧
          p.instr.operands.dropLast.mapM (c.value s) = .ok args ∧
          c.select s n p.instr = .ok (s', X86.Sequence.marshal (c.preserved s n p.instr) args ++
            .call name :: rest) ∧
          (X86.Sequence.marshal (c.preserved s n p.instr) args ++
            .call name :: rest).map .code <:+: out.lines ∧
          ∀ top cpu, c.Framed top cpu →
            X86.Context.Shelters cpu ((X86.Sequence.marshal (c.preserved s n p.instr) args).countP
              X86.Instr.isPush) p.instr →
            X86.Sequence.Delivers callee cpu (c.preserved s n p.instr) args := by
  obtain ⟨c, rfl, rfl, hb, -, ha, -, -, hcol, lines, hl, hout⟩ := compile_ok hf
  obtain ⟨callee, rfl, rfl, -, -, ha', -, -, hcol', lines', hl', hout'⟩ := compile_ok hg
  refine ⟨c, callee, ⟨rfl, rfl, ha, hcol, c.prologue_prefix hl hout⟩,
    ⟨rfl, rfl, ha', hcol', callee.prologue_prefix hl' hout'⟩, fun n p hp hcall => ?_⟩
  obtain ⟨s, s', code, hs, hsel, hinfix⟩ := X86.Context.infix_of_call hl hout hp hcall
  have hroom := X86.Context.fits_of_function hfits (Flow.length_allocas_le hb)
    (Flow.instr_mem_of_build hb (List.mem_of_getElem? hp))
  obtain ⟨args, name, rest, hargs, rfl, hdelivers⟩ :=
    X86.Context.exists_delivers hroom hsel callee
  have hselect : c.select s n p.instr = c.selectCall s n p.instr := by
    simp only [X86.Context.select, hcall]
  exact ⟨s, s', args, name, rest, hs, hargs, hselect.trans hsel, hinfix, hdelivers⟩

/-- A function with two parameters on the stack. -/
def gathered : Function where
  name := "g"
  ret := .int 64
  params := [⟨"a", .int 64⟩, ⟨"b", .int 64⟩, ⟨"c", .int 64⟩, ⟨"d", .int 64⟩, ⟨"e", .int 64⟩,
    ⟨"f", .int 64⟩]
  blocks := [⟨none, [
    ⟨.arith .sub, [.reg "d", .reg "e"], some "x", .int 64⟩,
    ⟨.arith .add, [.reg "x", .reg "f"], some "y", .int 64⟩,
    ⟨.ret, [.reg "y"], none, .int 64⟩]⟩]

theorem arguments_agree_spread :
    ∃ (out out' : CompiledFunction) (callee : X86.Context) (called : X86.Cpu),
      spread.compile {} = .ok out ∧ spread.Fits ∧ gathered.compile {} = .ok out' ∧
      callee.function = gathered ∧ callee.Receives called 3 3 ∧ callee.Receives called 4 4 ∧
      ∃ w, callee.Receives called 0 w ∧ callee.Receives called 5 w := by
  have hfits : spread.Fits := by unfold Fits; decide
  have hcaller : (spread.compile {}).toBool := by decide +kernel
  have hcallee : (gathered.compile {}).toBool := by decide +kernel
  obtain ⟨out, hout⟩ := exists_ok_of_toBool hcaller
  obtain ⟨out', hout'⟩ := exists_ok_of_toBool hcallee
  have hinstrs : spread.analyze.toOption.map (fun x => x.1.points.map Point.instr) =
      some spread.instrs := by
    decide +kernel
  obtain ⟨c, callee, hc, hcallee, hcall⟩ := arguments_agree hout hfits hout'
  simp only [hc.analysis, Except.toOption, Option.map_some, Option.some.injEq] at hinstrs
  have hpoint : (c.flow.points.map Point.instr)[0]? = _ := congrArg (·[0]?) hinstrs
  rw [List.getElem?_map] at hpoint
  obtain ⟨p, hp, hinstr⟩ := Option.map_eq_some_iff.mp hpoint
  obtain ⟨s, s', args, name, rest, -, hargs, -, -, hdelivers⟩ := hcall 0 p hp (by rw [hinstr])
  have hvalues : List.Forall₂ (fun a l => c.value s a = .ok l)
      [.reg "a", .imm 1, .imm 2, .imm 3, .imm 4, .reg "a"] args := by
    rw [hinstr] at hargs
    exact mapM_ok_iff.mp hargs
  obtain _ | ⟨hfirst, _ | ⟨-, _ | ⟨-, _ | ⟨hfourth, _ | ⟨hfifth, _ | ⟨hsixth, _⟩⟩⟩⟩⟩⟩ := hvalues
  cases hfourth
  cases hfifth
  obtain rfl := Except.ok.inj (hfirst.symm.trans hsixth)
  -- a frame at a fixed address
  let cpu : X86.Cpu := ⟨fun r => if r = .rsp then 4096 - BitVec.ofNat 64 c.bytesBelow else 4096,
    fun _ => 0, none, fun _ => 0⟩
  have hglobals : ∀ k, X86.Context.Shelters cpu k p.instr := by
    intro k name hname
    rw [hinstr] at hname
    simp at hname
  obtain ⟨d, -, hreceived⟩ := (hdelivers _ cpu ⟨rfl, rfl⟩ (hglobals _)).received
  exact ⟨out, out', callee, d.push 0, hout, hfits, hout', hcallee.function, hreceived 0 3 _ rfl,
    hreceived 0 4 _ rfl, _, hreceived 0 0 _ rfl, hreceived 0 5 _ rfl⟩

end Function

end IrAsm
