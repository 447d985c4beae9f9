import IrAsm.Proofs.X86.Footprint
import IrAsm.Proofs.X86.Select

/-!
# The words of a frame

A function finds its stack locals and the arguments on the stack at fixed displacements from `%rbp`.
With the saved registers, the frame pointer and the return address these are the words of its frame.
They have no bytes in common, and all lie on the stack from `%rsp` up to the end of the arguments,
if the frame fits into memory at all (`Function.Fits`). So code that spares this stack spares them.
-/

namespace IrAsm

/-- The frame fits into memory, with all arguments and all that a call pushes. -/
def Function.Fits (f : Function) : Prop :=
  ∀ i ∈ f.instrs, 8 * (f.params.length + f.instrs.length + i.operands.length + 16) ≤ 2 ^ 64

namespace X86

/-! ## Depths -/

namespace Frame

theorem depth?_bindArgument (fr : Frame) (name x : String) (index : Nat) :
    (fr.bindArgument name index).depth? x =
      (fr.depth? x).map fun d => if x = name then argumentDepth index else d := by
  unfold depth? bindArgument
  dsimp only
  induction fr.depths with
  | nil => rfl
  | cons y depths ih =>
    obtain ⟨y, d⟩ := y
    rw [List.map_cons, List.lookup_cons, List.lookup_cons, ih]
    cases h : x == y with
    | true => simp [eq_of_beq h]
    | false => rfl

/-- The slot of a local is the one at its position. -/
theorem depth?_plan {allocas : List String} {x : String} {d : Int}
    (h : (plan allocas).depth? x = some d) :
    ∃ j : Nat, allocas[j]? = some x ∧ d = 8 * ((j : Int) + 1) := by
  obtain ⟨⟨y, e⟩, hmem, hy⟩ : ∃ y ∈ (plan allocas).depths, y = (x, d) := by
    refine ⟨_, ?_, rfl⟩
    obtain ⟨l₁, l₂, hsplit, -⟩ := List.lookup_eq_some_iff.mp h
    rw [hsplit]
    simp
  cases hy
  obtain ⟨⟨y, j⟩, hy, he⟩ := List.mem_map.mp hmem
  cases he
  exact ⟨j, List.mem_zipIdx_iff_getElem?.mp hy, rfl⟩

theorem contains_plan {allocas : List String} {x : String} :
    (plan allocas).contains x ↔ x ∈ allocas := by
  rw [contains, depth?, List.lookup_isSome_iff]
  simp only [plan, List.mem_map, List.mem_zipIdx_iff_getElem?, beq_iff_eq]
  constructor
  · rintro ⟨_, ⟨⟨y, j⟩, hy, rfl⟩, rfl⟩; exact List.mem_of_getElem? hy
  · intro hx
    obtain ⟨j, hj⟩ := List.mem_iff_getElem?.mp hx
    exact ⟨_, ⟨(x, j), hj, rfl⟩, rfl⟩

end Frame

theorem toNat_ofInt_emod (d : Int) : ((BitVec.ofInt 64 d).toNat : Int) = d % 2 ^ 64 := by
  rw [BitVec.toNat_ofInt]
  omega

namespace Context

variable {c : Context} {top : Word} {cpu cpu' : Cpu} {d e : Int}

/-! ## Words -/

/-- The displacements at which a function looks for locals and arguments. -/
inductive FrameWord (c : Context) : Int → Prop where
  | slot {j : Nat} : j < c.flow.allocas.length → c.FrameWord (-(8 * ((j : Int) + 1)))
  | argument {index : Nat} : Reg.args.length ≤ index → index < c.function.params.length →
      c.FrameWord (-Frame.argumentDepth index)

/-- The bytes of the arguments on the stack, the return address and the saved frame pointer. -/
def bytesAbove (c : Context) : Nat := 16 + 8 * (c.function.params.length - Reg.args.length)

/-- The bytes of the slots and the saved registers. -/
def bytesBelow (c : Context) : Nat := 8 * (c.flow.allocas.length + c.saved.length)

/-- The word at displacement `d` is one of the frame, whether the function looks for it or not. -/
structure InFrame (c : Context) (d : Int) : Prop where
  aligned : 8 ∣ d
  below : -(c.bytesBelow : Int) ≤ d
  above : d + 8 ≤ c.bytesAbove

theorem FrameWord.inFrame (h : c.FrameWord d) : c.InFrame d := by
  cases h with
  | slot hj =>
    refine ⟨by omega, ?_, ?_⟩
    · unfold bytesBelow
      omega
    · unfold bytesAbove
      omega
  | argument hargs hlt =>
    unfold Frame.argumentDepth
    refine ⟨by omega, by omega, ?_⟩
    unfold bytesAbove
    omega

theorem stackParam?_bounds {x : String} {index : Nat} (h : c.stackParam? x = some index) :
    Reg.args.length ≤ index ∧ index < c.function.params.length := by
  obtain ⟨hindex, hle⟩ := Option.filter_eq_some_iff.mp h
  exact ⟨by simpa using hle, (List.findIdx?_eq_some_iff_getElem.mp hindex).1⟩

/-- The frame is set up, and its stack ends at `top`. -/
structure Framed (c : Context) (top : Word) (cpu : Cpu) : Prop where
  rsp : cpu.regs .rsp = cpu.regs .rbp - BitVec.ofNat 64 c.bytesBelow
  top : top = cpu.regs .rbp + BitVec.ofNat 64 c.bytesAbove

/-- The frame fits into memory, with `n` more words below it. -/
def Fits (c : Context) (n : Nat) : Prop := c.bytesAbove + c.bytesBelow + 8 * n < 2 ^ 64

theorem Fits.mono {n m : Nat} (h : c.Fits n) (hm : m ≤ n) : c.Fits m := by
  unfold Fits at *
  omega

theorem fits_of_function (h : c.function.Fits)
    (hlen : c.flow.allocas.length ≤ c.function.instrs.length) {i : IrAsm.Instr}
    (hi : i ∈ c.function.instrs) : c.Fits (Reg.callerSaved.length + i.operands.length + 1) := by
  have hsaved : c.saved.length ≤ Reg.palette.length := List.length_take_le' ..
  have hsize := h i hi
  simp only [Fits, bytesAbove, bytesBelow, Reg.args, Reg.palette, Reg.callerSaved, List.length_cons,
    List.length_nil] at *
  omega

section
variable {n : Nat} (hfits : c.Fits n) (h : c.Framed top cpu)
include hfits h

theorem Framed.room : cpu.Room top n := by
  unfold Fits at hfits
  rw [Cpu.Room, h.rsp, h.top]
  bv_omega

theorem Framed.within (hd : c.InFrame d) {b : Word}
    (hb : InWord (cpu.regs .rbp + BitVec.ofInt 64 d) b) : Within (cpu.regs .rsp) top b := by
  obtain ⟨-, hlo, hhi⟩ := hd
  have hx := toNat_ofInt_emod d
  unfold Fits at hfits
  unfold InWord at hb
  rw [Within, h.rsp, h.top]
  generalize BitVec.ofInt 64 d = x at hb hx
  bv_omega

/-- Code that spares the stack spares the words of the frame. -/
theorem Framed.read_frame {changed : Reg → Prop} (hs : cpu.Spares top cpu' changed)
    (hbp : ¬ changed .rbp) (hd : c.InFrame d) :
    cpu'.read (.frame d) = cpu.read (.frame d) := by
  rw [Cpu.read, Cpu.read, hs.regs .rbp hbp]
  exact Cpu.load_congr fun b hb => hs.mem b (h.within hfits hd hb)

end

theorem Framed.congr (h : c.Framed top cpu) (hsp : cpu'.regs .rsp = cpu.regs .rsp)
    (hbp : cpu'.regs .rbp = cpu.regs .rbp) : c.Framed top cpu' := by
  refine ⟨?_, ?_⟩
  · rw [hsp, hbp]
    exact h.rsp
  · rw [hbp]
    exact h.top

theorem InFrame.apart {n : Nat} (hfits : c.Fits (n + 1)) (hd : c.InFrame d) (he : c.InFrame e)
    (hne : d ≠ e) (a : Word) : Apart (a + BitVec.ofInt 64 d) (a + BitVec.ofInt 64 e) := by
  obtain ⟨hd8, hdlo, hdhi⟩ := hd
  obtain ⟨he8, helo, hehi⟩ := he
  have hx := toNat_ofInt_emod d
  have hy := toNat_ofInt_emod e
  unfold Fits at hfits
  unfold Apart
  generalize BitVec.ofInt 64 d = x at hx ⊢
  generalize BitVec.ofInt 64 e = y at hy ⊢
  bv_omega

end Context

end X86

end IrAsm
