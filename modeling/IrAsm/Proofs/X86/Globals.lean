import IrAsm.Proofs.X86.Marshal
import IrAsm.Proofs.X86.Symbols

/-!
# Stores to globals

A global has the bytes that its directive reserves, and globals lie one behind another. The code of
a store takes the address of a global from a table and writes a whole word there, whatever the type
of the global. So it stays within the bytes of the global exactly if these are a word, and it leaves
the other globals alone exactly if they are, or if no global comes behind.

`c.Loads globals base cpu`: in the state `cpu` the globals lie from `base` on, apart from the table
and from the words on the stack that the code of the function uses.
-/

namespace IrAsm

/-! ## Storage -/

/-- The bytes that a directive reserves. -/
def X86.Assembly.reserved : String → Nat
  | ".quad" => 8
  | ".long" => 4
  | ".byte" => 1
  | _ => 0

namespace Global

/-- The bytes that are reserved for a global. -/
def size (g : Global) : Nat := ((X86.Assembly.directive? g.ty).map X86.Assembly.reserved).getD 0

def totalSize (globals : List Global) : Nat := (globals.map size).sum

@[simp] theorem totalSize_cons (g : Global) (globals : List Global) :
    totalSize (g :: globals) = g.size + totalSize globals := rfl

/-- Of globals that lie one behind another from `base` on, `g` lies at `a`. -/
inductive Laid : List Global → Word → Global → Word → Prop where
  | head (g : Global) (rest : List Global) (base : Word) : Laid (g :: rest) base g base
  | tail {g h : Global} {rest : List Global} {base a : Word} :
      Laid rest (base + BitVec.ofNat 64 h.size) g a → Laid (h :: rest) base g a

/-- The byte `b` is reserved for `g`, which lies at `a`. -/
def Owns (g : Global) (a b : Word) : Prop := (b - a).toNat < g.size

/-- There is a directive for the type. -/
def IsStored (g : Global) : Prop := (X86.Assembly.directive? g.ty).isSome

theorem size_eq_eight (g : Global) (h : g.ty = .int 64) : g.size = 8 := by
  simp [size, h, X86.Assembly.directive?, X86.Assembly.reserved]

theorem IsStored.size_pos {g : Global} (h : g.IsStored) : 0 < g.size := by
  unfold IsStored X86.Assembly.directive? at h
  unfold size X86.Assembly.directive?
  split at h <;> simp_all [X86.Assembly.reserved]

theorem size_lt_eight {g : Global} (h : g.ty ≠ .int 64) : g.size < 8 := by
  unfold size X86.Assembly.directive?
  split <;> simp_all [X86.Assembly.reserved]

theorem size_le_eight (g : Global) : g.size ≤ 8 := by
  by_cases h : g.ty = .int 64
  · exact (g.size_eq_eight h).le
  · exact (size_lt_eight h).le

theorem Owns.inWord {g : Global} {a b : Word} (h : g.Owns a b) : X86.InWord a b := by
  have hsize := g.size_le_eight
  unfold Owns at h
  unfold X86.InWord
  bv_omega

theorem add_ofNat (a : Word) (m n : Nat) :
    a + BitVec.ofNat 64 m + BitVec.ofNat 64 n = a + BitVec.ofNat 64 (m + n) := by
  rw [BitVec.ofNat_add, BitVec.add_assoc]

namespace Laid

variable {globals : List Global} {base a b : Word} {g h : Global}

theorem mem (hg : Laid globals base g a) : g ∈ globals := by
  induction hg with
  | head g rest base => exact List.mem_cons_self
  | tail _ ih => exact List.mem_cons_of_mem _ ih

theorem offset (hg : Laid globals base g a) :
    ∃ i : Nat, a = base + BitVec.ofNat 64 i ∧ i + g.size ≤ totalSize globals := by
  induction hg with
  | head g rest base => exact ⟨0, by simp, by simp⟩
  | @tail g h rest base a _ ih =>
    obtain ⟨i, rfl, hi⟩ := ih
    rw [totalSize_cons]
    exact ⟨h.size + i, add_ofNat .., by omega⟩

theorem getLast?_cons_of_mem {x : Global} {rest : List Global} (hg : g ∈ rest) :
    (x :: rest).getLast? = rest.getLast? := by
  cases rest with
  | nil => cases hg
  | cons y rest => exact List.getLast?_cons_cons

/-- A global before others is not the last one. -/
theorem getLast?_ne (hnames : ((g :: globals).map name).Nodup) (hh : h ∈ globals) :
    (g :: globals).getLast? ≠ some g := by
  rw [getLast?_cons_of_mem hh]
  intro hlast
  exact (List.nodup_cons.mp hnames).1 (List.mem_map_of_mem (List.mem_of_getLast? hlast))

/-- Of two globals one lies before the other; nothing lies behind the last one. -/
theorem ordered (hnames : (globals.map name).Nodup) (hg : Laid globals base g a)
    (hh : Laid globals base h b) (hne : h.name ≠ g.name) :
    ∃ i j : Nat, a = base + BitVec.ofNat 64 i ∧ b = base + BitVec.ofNat 64 j ∧
      i + g.size ≤ totalSize globals ∧ j + h.size ≤ totalSize globals ∧
      (i + g.size ≤ j ∧ globals.getLast? ≠ some g ∨ j + h.size ≤ i) := by
  induction hg with
  | head g rest base =>
    rw [totalSize_cons]
    cases hh with
    | head => exact absurd rfl hne
    | tail hh =>
      obtain ⟨j, rfl, hj⟩ := hh.offset
      exact ⟨0, g.size + j, by simp, add_ofNat .., by omega, by omega,
        .inl ⟨by omega, getLast?_ne hnames hh.mem⟩⟩
  | @tail g x rest base a hg ih =>
    rw [totalSize_cons]
    cases hh with
    | head =>
      obtain ⟨i, rfl, hi⟩ := hg.offset
      exact ⟨h.size + i, 0, add_ofNat .., by simp, by omega, by omega, .inr (by omega)⟩
    | tail hh =>
      obtain ⟨i, j, rfl, rfl, hi, hj, hij⟩ := ih (List.nodup_cons.mp hnames).2 hh hne
      refine ⟨x.size + i, x.size + j, add_ofNat .., add_ofNat .., by omega, by omega, ?_⟩
      rw [getLast?_cons_of_mem hg.mem]
      exact hij.imp (fun hij => ⟨by omega, hij.2⟩) fun hij => by omega

/-- Behind a global that is not the last one there is another. -/
theorem next (hnames : (globals.map name).Nodup) (hg : Laid globals base g a)
    (hlast : globals.getLast? ≠ some g) :
    ∃ h, h.name ≠ g.name ∧ Laid globals base h (a + BitVec.ofNat 64 g.size) := by
  induction hg with
  | head g rest base =>
    cases rest with
    | nil => exact absurd rfl hlast
    | cons h rest =>
      refine ⟨h, fun hne => (List.nodup_cons.mp hnames).1 ?_, .tail (.head h rest _)⟩
      exact hne ▸ List.mem_cons_self
  | tail hg ih =>
    rw [getLast?_cons_of_mem hg.mem] at hlast
    obtain ⟨h, hne, hh⟩ := ih (List.nodup_cons.mp hnames).2 hlast
    exact ⟨h, hne, .tail hh⟩

end Laid

end Global

namespace X86

open Global (Laid)

/-! ## The code of a store -/

/-- The code of a store to a global. -/
def Sequence.storeGlobal (name : String) (src : Loc) : List Instr :=
  .mov (.global name) (.reg .rax) :: move src (.indirect .rax)

/-- The byte is in the word below `%rsp` that a value in memory is moved over. -/
def Sequence.Crosses (src : Loc) (cpu : Cpu) (b : Word) : Prop :=
  src.isMemory ∧ InWord (cpu.regs .rsp - 8) b

/-- The states differ at most in the word at `a`. -/
structure Cpu.SameBut (a : Word) (cpu cpu' : Cpu) : Prop where
  regs : cpu'.regs = cpu.regs
  mem : ∀ b, ¬ InWord a b → cpu'.mem b = cpu.mem b
  globals : cpu'.globals = cpu.globals

theorem Cpu.SameBut.store (a w : Word) (cpu : Cpu) : cpu.SameBut a (cpu.store a w) :=
  ⟨rfl, fun _ hb => mem_store_of_not_inWord hb, rfl⟩

theorem Cpu.SameBut.load {a b : Word} {cpu cpu' : Cpu} (h : cpu.SameBut a cpu') (hab : Apart b a) :
    cpu'.load b = cpu.load b :=
  load_congr fun _ hx => h.mem _ (hab.not_inWord hx)

/-- A word and its complement differ in each byte. -/
theorem Cpu.mem_store_not {a b : Word} (c d : Cpu) (w : Word) (h : InWord a b) :
    (c.store a w).mem b ≠ (d.store a (~~~w)).mem b := by
  have hk : 8 * (b - a).toNat < 64 := by
    unfold InWord at h
    bv_omega
  have hc : (c.store a w).mem b = (w >>> (8 * (b - a).toNat)).setWidth 8 := if_pos h
  have hd : (d.store a (~~~w)).mem b = (~~~w >>> (8 * (b - a).toNat)).setWidth 8 := if_pos h
  rw [hc, hd]
  intro heq
  -- the lowest bits of the two bytes differ
  have hbit := congrArg (BitVec.getLsbD · 0) heq
  generalize 8 * (b - a).toNat = k at hk hbit
  simp [hk] at hbit

namespace Context

/-- Where the values of operands are. -/
def Readable (c : Context) : Loc → Prop
  | .imm _ | .global _ => True
  | .reg r => r ∈ Reg.palette
  | .frame d => c.FrameWord d
  | .indirect _ => False

variable {c : Context} {s s' : State} {n : Nat} {cpu : Cpu} {src : Loc} {name : String}

theorem readable_of_value {a : Operand} (h : c.value s a = .ok src) : c.Readable src := by
  cases a with
  | imm v =>
    cases h
    trivial
  | reg x =>
    rcases register_cases h with ⟨v, -, rfl⟩ | ⟨-, ⟨index, hindex, rfl⟩ | ⟨-, -, r, hr, rfl⟩⟩
    · trivial
    · obtain ⟨hle, hlt⟩ := stackParam?_bounds hindex
      exact .argument hle hlt
    · exact mem_palette_of_colored hr
  | global x =>
    cases h
    trivial
  | label _ => cases h
  | callee _ => cases h

theorem Readable.read_setReg (h : c.Readable src) (cpu : Cpu) (w : Word) :
    (cpu.setReg .rax w).read src = cpu.read src := by
  cases src with
  | imm v => rfl
  | reg r =>
    have hr : r ∈ Reg.palette := h
    have hne : r ≠ .rax := by
      rintro rfl
      exact absurd hr (by decide)
    simp [hne]
  | frame d => rfl
  | global x => rfl
  | indirect r => cases h

/-- A store to a global is one write to its address, behind at most one to the stack. -/
theorem Readable.run_storeGlobal (h : c.Readable src) (cpu : Cpu) (name : String) :
    ∃ e : Cpu, run (Sequence.storeGlobal name src) cpu =
        some (e.store (cpu.load (cpu.globals name)) (cpu.read src)) ∧
      ∀ b, ¬ Sequence.Crosses src cpu b → e.mem b = cpu.mem b := by
  have haddress : (Instr.mov (.global name) (.reg .rax)).exec cpu =
      some (cpu.setReg .rax (cpu.load (cpu.globals name))) := rfl
  have hread := h.read_setReg cpu (cpu.load (cpu.globals name))
  rw [Sequence.storeGlobal, run_cons, haddress, Option.bind_some, Sequence.move]
  generalize cpu.load (cpu.globals name) = a at hread ⊢
  split
  · next hboth =>
    refine ⟨((cpu.setReg .rax a).push (cpu.read src)).setReg .rsp (cpu.regs .rsp), ?_,
      fun b hb => ?_⟩
    · rw [run_cons, exec_push, Option.bind_some, hread, run_cons]
      simp only [Instr.exec, Cpu.write, Cpu.push, Cpu.regs_setReg, Cpu.regs_store, reduceCtorEq,
        if_true, if_false, BitVec.sub_add_cancel, Cpu.load_store, Option.bind_some, run_nil]
    · exact Cpu.mem_store_of_not_inWord fun hword => hb ⟨(Bool.and_eq_true_iff.mp hboth).1, hword⟩
  · next hboth =>
    refine ⟨cpu.setReg .rax a, ?_, fun _ _ => rfl⟩
    have hmov : (Instr.mov src (.indirect .rax)).exec (cpu.setReg .rax a) =
        (cpu.setReg .rax a).write (.indirect .rax) ((cpu.setReg .rax a).read src) := if_neg hboth
    rw [run_cons, hmov, hread]
    simp [Cpu.write]

/-- The globals lie from `base` on, and the table holds their addresses. Apart from the words of the
globals are the table, the words of the frame and the word below `%rsp`. -/
structure Loads (c : Context) (globals : List Global) (base : Word) (cpu : Cpu) : Prop where
  fits : Global.totalSize globals + 8 ≤ 2 ^ 64
  address : ∀ g a, Laid globals base g a → cpu.load (cpu.globals g.name) = a
  table : ∀ g a, Laid globals base g a → ∀ name, Apart (cpu.globals name) a
  frame : ∀ g a, Laid globals base g a → ∀ d, c.FrameWord d →
    Apart (cpu.regs .rbp + BitVec.ofInt 64 d) a
  below : ∀ g a, Laid globals base g a → Apart a (cpu.regs .rsp - 8)

/-- Whatever the word at `a` was, the code runs and does not change the bytes in `keep`. -/
def Leaves (code : List Instr) (cpu : Cpu) (a : Word) (keep : Word → Prop) : Prop :=
  ∀ d, cpu.SameBut a d → ∃ d', run code d = some d' ∧ ∀ b, keep b → d'.mem b = d.mem b

section
variable {globals : List Global} {base a : Word} {g : Global} (h : c.Loads globals base cpu)
  (hg : Laid globals base g a) (hsrc : c.Readable src)
include h hg hsrc

theorem Loads.read_eq {d : Cpu} (hd : cpu.SameBut a d) : d.read src = cpu.read src := by
  cases src with
  | imm v => rfl
  | reg r => exact congrFun hd.regs r
  | frame x =>
    rw [Cpu.read, Cpu.read, hd.regs]
    exact hd.load (h.frame g a hg x hsrc)
  | global x =>
    rw [Cpu.read, Cpu.read, hd.globals]
    exact hd.load (h.table g a hg x)
  | indirect r => cases hsrc

theorem Loads.run_storeGlobal {d : Cpu} (hd : cpu.SameBut a d) :
    ∃ e : Cpu, run (Sequence.storeGlobal g.name src) d = some (e.store a (cpu.read src)) ∧
      ∀ b, ¬ Sequence.Crosses src cpu b → e.mem b = d.mem b := by
  obtain ⟨e, he, hmem⟩ := hsrc.run_storeGlobal d g.name
  have haddress : d.load (d.globals g.name) = a := by
    rw [hd.globals, hd.load (h.table g a hg g.name)]
    exact h.address g a hg
  rw [haddress, h.read_eq hg hsrc hd] at he
  exact ⟨e, he, fun b hb => hmem b (by rwa [Sequence.Crosses, hd.regs])⟩

/-- Off the stack, a store to a global leaves bytes alone exactly if they are not in the word at its
address. -/
theorem Loads.leaves_iff {keep : Word → Prop} (hkeep : ∀ b, keep b → ¬ Sequence.Crosses src cpu b) :
    Leaves (Sequence.storeGlobal g.name src) cpu a keep ↔ ∀ b, keep b → ¬ InWord a b := by
  constructor
  · intro hleaves b hb hword
    -- with the complement of the value there before, the store changes every byte of the word
    have hd := Cpu.SameBut.store a (~~~cpu.read src) cpu
    obtain ⟨e, he, -⟩ := h.run_storeGlobal hg hsrc hd
    obtain ⟨d', hd', hmem⟩ := hleaves _ hd
    obtain rfl := Option.some.inj (he.symm.trans hd')
    exact Cpu.mem_store_not e cpu (cpu.read src) hword (hmem b hb)
  · intro hapart d hd
    obtain ⟨e, he, hmem⟩ := h.run_storeGlobal hg hsrc hd
    refine ⟨_, he, fun b hb => ?_⟩
    rw [Cpu.mem_store_of_not_inWord (hapart b hb)]
    exact hmem b (hkeep b hb)

theorem Loads.leaves_outside :
    Leaves (Sequence.storeGlobal g.name src) cpu a
      (fun b => ¬ InWord a b ∧ ¬ Sequence.Crosses src cpu b) :=
  (h.leaves_iff hg hsrc fun _ hb => hb.2).mpr fun _ hb => hb.1

/-- A store changes only bytes of the global exactly if the global has a word. -/
theorem Loads.leaves_rest_iff :
    Leaves (Sequence.storeGlobal g.name src) cpu a
      (fun b => ¬ g.Owns a b ∧ ¬ Sequence.Crosses src cpu b) ↔ g.ty = .int 64 := by
  rw [h.leaves_iff hg hsrc fun b hb => hb.2]
  constructor
  · intro hapart
    by_contra hty
    have hsize := Global.size_lt_eight hty
    have hword : InWord a (a + 7) := by
      unfold InWord
      bv_omega
    refine hapart (a + 7) ⟨?_, fun hcross => (h.below g a hg).not_inWord hword hcross.2⟩ hword
    unfold Global.Owns
    bv_omega
  · intro hty b hb hword
    refine hb.1 ?_
    unfold Global.Owns
    rw [g.size_eq_eight hty]
    exact hword

/-- A store leaves the other globals alone exactly if the global has a word, or no other lies behind
it. -/
theorem Loads.leaves_others_iff (hnames : (globals.map Global.name).Nodup)
    (hstored : ∀ g ∈ globals, g.IsStored) :
    Leaves (Sequence.storeGlobal g.name src) cpu a
      (fun b => ∃ g' a', Laid globals base g' a' ∧ g'.name ≠ g.name ∧ g'.Owns a' b) ↔
        g.ty = .int 64 ∨ globals.getLast? = some g := by
  rw [h.leaves_iff hg hsrc fun b ⟨g', a', hg', _, howns⟩ hcross =>
    (h.below g' a' hg').not_inWord howns.inWord hcross.2]
  constructor
  · intro hapart
    by_contra hboth
    obtain ⟨hty, hlast⟩ := not_or.mp hboth
    -- the first byte of the next global is still in the word
    obtain ⟨g', hne, hg'⟩ := hg.next hnames hlast
    have hsize := Global.size_lt_eight hty
    refine hapart (a + BitVec.ofNat 64 g.size) ⟨g', _, hg', hne, ?_⟩ ?_
    · have hpos := (hstored g' hg'.mem).size_pos
      unfold Global.Owns
      bv_omega
    · unfold InWord
      bv_omega
  · rintro hwide b ⟨g', a', hg', hne, howns⟩ hword
    have hfits := h.fits
    obtain ⟨i, j, rfl, rfl, hi, hj, ⟨hij, hlast⟩ | hji⟩ := hg.ordered hnames hg' hne
    · rw [g.size_eq_eight (hwide.resolve_right hlast)] at hij hi
      unfold Global.Owns at howns
      unfold InWord at hword
      bv_omega
    · unfold Global.Owns at howns
      unfold InWord at hword
      bv_omega

end

/-! ## Emitted stores -/

theorem select_storeGlobal {i : IrAsm.Instr} {code : List Instr} {a : Operand} {rest : List Operand}
    (hop : i.opcode = .store) (hab : i.operands = a :: .global name :: rest)
    (h : c.select s n i = .ok (s', code)) :
    ∃ src, c.value s a = .ok src ∧ s' = s ∧ code = Sequence.storeGlobal name src := by
  simp only [select, hop] at h
  obtain ⟨a', b, rest', hab', hcases⟩ := selectStore_ok h
  obtain ⟨rfl, rfl, rfl⟩ : a = a' ∧ Operand.global name = b ∧ rest = rest' := by
    simpa using hab.symm.trans hab'
  rcases hcases with ⟨x, index, hbound, -⟩ | ⟨-, rfl, src, pre, dst, hsrc, hmem, rfl⟩
  · obtain ⟨_, -, hreg, -⟩ := bound?_eq_some_iff.mp hbound
    cases hreg
  · cases hmem
    exact ⟨src, hsrc, rfl, rfl⟩

theorem shape_storeGlobal (hsrc : c.Readable src) :
    ∀ line ∈ (Sequence.storeGlobal name src).map Line.code, line.shape = .other := by
  have hne : src ≠ .indirect .rax := by
    rintro rfl
    cases hsrc
  unfold Sequence.storeGlobal Sequence.move
  split <;> simp [Line.shape, hne]

end Context

end X86

/-- The lines of a compiled function hold the code of each store to a global. -/
theorem Function.exists_storeGlobal {f : Function} {config : Config} {out : CompiledFunction}
    (h : f.compile config = .ok out) :
    ∃ c : X86.Context, c.Compiles f config out ∧
      ∀ n p name value rest, c.flow.points[n]? = some p → p.instr.opcode = .store →
        p.instr.operands = value :: .global name :: rest →
        ∃ s src, c.StateAt n s ∧ c.value s value = .ok src ∧
          c.select s n p.instr = .ok (s, X86.Sequence.storeGlobal name src) ∧
          (X86.Sequence.storeGlobal name src).map .code <:+: out.lines := by
  obtain ⟨c, rfl, rfl, -, -, ha, -, -, hcol, lines, hl, hout⟩ := compile_ok h
  refine ⟨c, ⟨rfl, rfl, ha, hcol, c.prologue_prefix hl hout⟩,
    fun n p name value rest hp hop hab => ?_⟩
  have hshape : ∀ s s' code, c.select s n p.instr = .ok (s', code) →
      ∀ line ∈ code.map X86.Line.code, line.shape = .other := by
    intro s s' code hsel
    obtain ⟨src, hsrc, -, rfl⟩ := X86.Context.select_storeGlobal hop hab hsel
    exact X86.Context.shape_storeGlobal (X86.Context.readable_of_value hsrc)
  obtain ⟨s, s', code, hs, hsel, hinfix⟩ := X86.Context.infix_of_point hl hout hp hshape
  obtain ⟨src, hsrc, rfl, rfl⟩ := X86.Context.select_storeGlobal hop hab hsel
  exact ⟨s', src, hs, hsrc, hsel, hinfix⟩

namespace Module

theorem isStored_of_compile {m : Module} {config : Config} {out : Compilation}
    (h : m.compile config = .ok out) : ∀ g ∈ m.globals, g.IsStored := by
  obtain ⟨-, fns, -, htext⟩ := compile_ok h
  simp only [X86.Assembly.text, X86.Assembly.fileLines, bind_ok_iff] at htext
  obtain ⟨_, ⟨storage, hstorage, -⟩, -⟩ := htext
  intro g hg
  obtain ⟨lines, -, hlines⟩ := exists_mem_of_mapM hstorage hg
  unfold X86.Assembly.globalLines at hlines
  split at hlines
  · next d hd => exact Option.isSome_of_eq_some hd
  · cases hlines

/-- A store to a global writes the word at its address: it changes only bytes of the global exactly
if the global has eight, and leaves all other globals alone exactly if it has, or if it is the last
one. This holds for every store of a module that is compiled, in every state in which the globals
lie one behind another. -/
theorem store_keeps_globals_iff {m : Module} {config : Config} {out : Compilation}
    (h : m.compile config = .ok out) :
    ∃ fns, m.functions.mapM (·.compile config) = .ok fns ∧
      X86.Assembly.text config.fileName m.globals (fns.map fun c => c.lines.map X86.Line.text) =
        .ok out.assembly ∧
      ∀ f ∈ m.functions, ∃ fn ∈ fns, ∃ c : X86.Context, f.compile config = .ok fn ∧
        c.Compiles f config fn ∧ ∀ n p g value rest, c.flow.points[n]? = some p →
          p.instr.opcode = .store → p.instr.operands = value :: .global g.name :: rest →
          ∃ s src, c.StateAt n s ∧ c.value s value = .ok src ∧
            c.select s n p.instr = .ok (s, X86.Sequence.storeGlobal g.name src) ∧
            (X86.Sequence.storeGlobal g.name src).map .code <:+: fn.lines ∧
            ∀ base a cpu, Global.Laid m.globals base g a → c.Loads m.globals base cpu →
              (∃ cpu', X86.run (X86.Sequence.storeGlobal g.name src) cpu = some cpu' ∧
                cpu'.load a = cpu.read src) ∧
              X86.Context.Leaves (X86.Sequence.storeGlobal g.name src) cpu a
                (fun b => ¬ X86.InWord a b ∧ ¬ X86.Sequence.Crosses src cpu b) ∧
              (X86.Context.Leaves (X86.Sequence.storeGlobal g.name src) cpu a
                (fun b => ¬ g.Owns a b ∧ ¬ X86.Sequence.Crosses src cpu b) ↔ g.ty = .int 64) ∧
              (X86.Context.Leaves (X86.Sequence.storeGlobal g.name src) cpu a
                (fun b => ∃ g' a', Global.Laid m.globals base g' a' ∧ g'.name ≠ g.name ∧
                  g'.Owns a' b) ↔ g.ty = .int 64 ∨ m.globals.getLast? = some g) := by
  obtain ⟨hv, fns, hfns, htext⟩ := compile_ok h
  have hnames := (verify_ok hv).1
  refine ⟨fns, hfns, htext, fun f hf => ?_⟩
  obtain ⟨fn, hfn, hcompile⟩ := exists_mem_of_mapM hfns hf
  obtain ⟨c, hc, hstores⟩ := Function.exists_storeGlobal hcompile
  refine ⟨fn, hfn, c, hcompile, hc, fun n p g value rest hp hop hab => ?_⟩
  obtain ⟨s, src, hs, hsrc, hsel, hinfix⟩ := hstores n p g.name value rest hp hop hab
  have hread := X86.Context.readable_of_value hsrc
  refine ⟨s, src, hs, hsrc, hsel, hinfix, fun base a cpu hg hloads =>
    ⟨?_, hloads.leaves_outside hg hread, hloads.leaves_rest_iff hg hread,
      hloads.leaves_others_iff hg hread hnames (isStored_of_compile h)⟩⟩
  obtain ⟨e, he, -⟩ := hloads.run_storeGlobal hg hread ⟨rfl, fun _ _ => rfl, rfl⟩
  exact ⟨_, he, X86.Cpu.load_store ..⟩

/-- A function that stores to a global. -/
def storing (ty : Ty) : Function where
  name := "f"
  ret := .void
  params := []
  blocks := [⟨none, [⟨.store, [.imm (-1), .global "a"], none, ty⟩, ⟨.ret, [], none, .void⟩]⟩]

/-- A module with two globals, and a store to the first one. -/
def neighbors (ty : Ty) : Module := ⟨[⟨"a", ty⟩, ⟨"b", .int 32⟩], [storing ty]⟩

/-- A state in which the globals lie at 512, with their addresses in the two words at 256. -/
def neighborsLoaded (ty : Ty) : X86.Cpu :=
  ((⟨fun _ => 4096, fun _ => 0, none, fun name => if name = "a" then 256 else 264⟩ : X86.Cpu).store
    256 512).store 264 (512 + BitVec.ofNat 64 (Global.size ⟨"a", ty⟩))

theorem laid_neighbors {ty : Ty} {g : Global} {a : Word}
    (h : Global.Laid (neighbors ty).globals 512 g a) :
    g = ⟨"a", ty⟩ ∧ a = 512 ∨
      g = ⟨"b", .int 32⟩ ∧ a = 512 + BitVec.ofNat 64 (Global.size ⟨"a", ty⟩) := by
  cases h with
  | head => exact .inl ⟨rfl, rfl⟩
  | tail h =>
    cases h with
    | head => exact .inr ⟨rfl, rfl⟩
    | tail h => cases h

theorem loads_neighbors {ty : Ty} {c : X86.Context} (hparams : c.function.params = [])
    (hallocas : c.flow.allocas = []) : c.Loads (neighbors ty).globals 512 (neighborsLoaded ty) := by
  have hsize := Global.size_le_eight ⟨"a", ty⟩
  refine ⟨?_, fun g a hg => ?_, fun g a hg name => ?_, fun g a hg d hd => ?_, fun g a hg => ?_⟩
  · have hb : Global.size ⟨"b", .int 32⟩ = 4 := by decide
    change Global.size ⟨"a", ty⟩ + (Global.size ⟨"b", .int 32⟩ + 0) + 8 ≤ 2 ^ 64
    omega
  · rcases laid_neighbors hg with ⟨rfl, rfl⟩ | ⟨rfl, rfl⟩
    · change X86.Cpu.load _ 256 = 512
      rw [neighborsLoaded, X86.Cpu.load_store_of_apart ⟨by decide, by decide⟩]
      exact X86.Cpu.load_store ..
    · exact X86.Cpu.load_store ..
  · have hname : (neighborsLoaded ty).globals name = 256 ∨
        (neighborsLoaded ty).globals name = 264 := by
      change (if name = "a" then _ else _) = _ ∨ (if name = "a" then _ else _) = _
      split
      · exact .inl rfl
      · exact .inr rfl
    unfold X86.Apart
    rcases hname with hname | hname <;> rw [hname] <;>
      rcases laid_neighbors hg with ⟨-, rfl⟩ | ⟨-, rfl⟩ <;> bv_omega
  · cases hd with
    | slot hj =>
      rw [hallocas] at hj
      cases hj
    | argument _ hlt =>
      rw [hparams] at hlt
      cases hlt
  · change X86.Apart a (4096 - 8)
    unfold X86.Apart
    rcases laid_neighbors hg with ⟨-, rfl⟩ | ⟨-, rfl⟩ <;> bv_omega

/-- The store is the first point, and there is nothing in the frame. -/
theorem exists_point_neighbors {ty : Ty} {c : X86.Context} {out : CompiledFunction}
    (hc : c.Compiles (storing ty) {} out)
    (hflow : (storing ty).analyze.toOption.map
      (fun x => (x.1.allocas, x.1.points.map Point.instr)) = some ([], (storing ty).instrs)) :
    c.Loads (neighbors ty).globals 512 (neighborsLoaded ty) ∧
      ∃ p, c.flow.points[0]? = some p ∧ p.instr = ⟨.store, [.imm (-1), .global "a"], none, ty⟩ := by
  simp only [hc.analysis, Except.toOption, Option.map_some, Option.some.injEq,
    Prod.mk.injEq] at hflow
  refine ⟨loads_neighbors (by rw [hc.function]; rfl) hflow.1, ?_⟩
  have hpoint : (c.flow.points.map Point.instr)[0]? = _ := congrArg (·[0]?) hflow.2
  rw [List.getElem?_map] at hpoint
  exact Option.map_eq_some_iff.mp hpoint

theorem store_keeps_globals_iff_wide :
    ∃ out fn code, (neighbors (.int 64)).compile {} = .ok out ∧
      (storing (.int 64)).compile {} = .ok fn ∧ code.map .code <:+: fn.lines ∧
      X86.Context.Leaves code (neighborsLoaded (.int 64)) 512 fun b =>
        ∃ g' a', Global.Laid (neighbors (.int 64)).globals 512 g' a' ∧ g'.name ≠ "a" ∧
          g'.Owns a' b := by
  obtain ⟨out, hout⟩ :=
    exists_ok_of_toBool (x := (neighbors (.int 64)).compile {}) (by decide +kernel)
  obtain ⟨fns, -, -, hstores⟩ := store_keeps_globals_iff hout
  obtain ⟨fn, -, c, hfn, hc, hstores⟩ := hstores (storing (.int 64)) List.mem_cons_self
  obtain ⟨hloads, p, hp, hinstr⟩ := exists_point_neighbors hc (by decide +kernel)
  obtain ⟨s, src, -, -, -, hinfix, hleaves⟩ :=
    hstores 0 p ⟨"a", .int 64⟩ (.imm (-1)) [] hp (by rw [hinstr]) (by rw [hinstr])
  exact ⟨out, fn, _, hout, hfn, hinfix, (hleaves 512 512 _ (.head ..) hloads).2.2.2.mpr (.inl rfl)⟩

/-- The store to the first global overwrites the second one. -/
theorem store_overwrites_neighbor :
    ∃ out fn c code cpu', (neighbors (.int 32)).compile {} = .ok out ∧
      (storing (.int 32)).compile {} = .ok fn ∧ code.map .code <:+: fn.lines ∧
      X86.Context.Loads c (neighbors (.int 32)).globals 512 (neighborsLoaded (.int 32)) ∧
      c.Compiles (storing (.int 32)) {} fn ∧
      X86.run code (neighborsLoaded (.int 32)) = some cpu' ∧
      Global.Laid (neighbors (.int 32)).globals 512 ⟨"b", .int 32⟩ 516 ∧
      Global.Owns ⟨"b", .int 32⟩ 516 516 ∧ cpu'.mem 516 ≠ (neighborsLoaded (.int 32)).mem 516 := by
  obtain ⟨out, hout⟩ :=
    exists_ok_of_toBool (x := (neighbors (.int 32)).compile {}) (by decide +kernel)
  obtain ⟨-, fns, hfns, -⟩ := compile_ok hout
  obtain ⟨fn, -, hfn⟩ := exists_mem_of_mapM hfns (List.mem_cons_self (a := storing (.int 32)))
  obtain ⟨c, hc, hstores⟩ := Function.exists_storeGlobal hfn
  obtain ⟨hloads, p, hp, hinstr⟩ := exists_point_neighbors hc (by decide +kernel)
  obtain ⟨s, src, -, hsrc, -, hinfix⟩ :=
    hstores 0 p "a" (.imm (-1)) [] hp (by rw [hinstr]) (by rw [hinstr])
  cases hsrc
  have hsrc : c.Readable (.imm (-1)) := trivial
  obtain ⟨e, he, -⟩ :=
    hloads.run_storeGlobal (.head ⟨"a", .int 32⟩ _ _) hsrc ⟨rfl, fun _ _ => rfl, rfl⟩
  have howns : Global.Owns ⟨"b", .int 32⟩ 516 516 := by unfold Global.Owns; decide
  have hnew : (e.store 512 (-1)).mem 516 = 255 := rfl
  have hold : (neighborsLoaded (.int 32)).mem 516 = 0 := rfl
  refine ⟨out, fn, c, _, _, hout, hfn, hinfix, hloads, hc, he, .tail (.head ..), howns, ?_⟩
  rw [hold]
  exact fun heq => absurd (hnew.symm.trans heq) (by decide)

end Module

end IrAsm
