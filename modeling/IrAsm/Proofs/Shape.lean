import IrAsm.Module.Read
import IrAsm.Proofs.Success
import Mathlib.Data.List.Basic

/-!
# The shape of what is read

Each opcode takes operands of certain kinds in a certain order (`Opcode.Takes`). The text of an
instruction is read by its mnemonic, so an instruction that was read has the operands that its
opcode takes. A function that was read has these, and blocks of which only the first can be without
a label (`Function.Regular`).

`p.Yields Q`: whatever the parser `p` gives, if it gives anything, satisfies `Q`.
-/

namespace IrAsm

/-- A register, an integer or the address of a global. -/
def Operand.isValue : Operand → Bool
  | .reg _ | .imm _ | .global _ => true
  | .label _ | .callee _ => false

/-- The operands that an opcode takes. -/
inductive Opcode.Takes : Opcode → List Operand → Prop where
  | alloca : Takes .alloca []
  | store {value pointer : Operand} : value.isValue → pointer.isValue →
      Takes .store [value, pointer]
  | load {pointer : Operand} : pointer.isValue → Takes .load [pointer]
  | jump (target : String) : Takes .br [.label target]
  | branch {cond : Operand} (whenTrue whenFalse : String) : cond.isValue →
      Takes .br [cond, .label whenTrue, .label whenFalse]
  | icmp (p : Predicate) {lhs rhs : Operand} : lhs.isValue → rhs.isValue →
      Takes (.icmp p) [lhs, rhs]
  | arith (op : Arith) {lhs rhs : Operand} : lhs.isValue → rhs.isValue →
      Takes (.arith op) [lhs, rhs]
  | call {args : List Operand} (callee : String) : (∀ a ∈ args, a.isValue) →
      Takes .call (args ++ [.callee callee])
  | retVoid : Takes .ret []
  | ret {value : Operand} : value.isValue → Takes .ret [value]
  | getelementptr {base : Operand} {indices : List Operand} : base.isValue →
      (∀ a ∈ indices, a.isValue) → Takes .getelementptr (base :: indices)
  | bitcast {value : Operand} : value.isValue → Takes .bitcast [value]
  | unsupported (name : String) {regs : List Operand} : (∀ a ∈ regs, ∃ reg, a = .reg reg) →
      Takes (.unsupported name) regs

/-- The instruction has the operands that its opcode takes. -/
def Instr.Regular (i : Instr) : Prop := i.opcode.Takes i.operands

structure Function.Regular (f : Function) : Prop where
  /-- Only the first block can be without a label. -/
  label : ∀ b ∈ f.blocks.tail, b.label.isSome
  nonempty : ∀ b ∈ f.blocks, b.label = none → b.instrs ≠ []
  instr : ∀ i ∈ f.instrs, i.Regular

/-! ## Parsers -/

namespace Parser

def Yields {α : Type} (p : Parser α) (Q : α → Prop) : Prop :=
  ∀ s a s', p s = .ok (a, s') → Q a

namespace Yields

variable {α β : Type} {p : Parser α} {k : α → Parser β} {Q : α → Prop} {T : β → Prop}

theorem any : p.Yields fun _ => True := fun _ _ _ _ => trivial

theorem pure {a : α} (h : Q a) : Yields (pure a) Q := by
  intro s b s' hb
  cases hb
  exact h

theorem fail {fault : ParseFault} : (Parser.fail fault : Parser α).Yields Q := by
  intro s a s' h
  cases h

theorem bind (h : p.Yields Q) (hk : ∀ a, Q a → (k a).Yields T) : (p >>= k).Yields T := by
  intro s b s' hb
  change p s >>= (fun x => k x.1 x.2) = _ at hb
  cases hp : p s with
  | error e => rw [hp] at hb; cases hb
  | ok x => rw [hp] at hb; exact hk x.1 (h _ _ _ hp) _ _ _ hb

/-- What is read first does not matter to what is read then. -/
theorem after (hk : ∀ a, (k a).Yields T) : (p >>= k).Yields T := any.bind fun a _ => hk a

theorem collect {item : Parser (Option α × Bool)} (h : item.Yields fun x => ∀ a ∈ x.1, Q a) :
    (collect item).Yields fun as => ∀ a ∈ as, Q a := by
  intro s as s' has
  fun_induction Parser.collect item s generalizing as s' with
  | case1 => cases has
  | case2 => cases has
  | case3 s found more rest hitem _ others last hrest ih =>
    cases has
    intro a ha
    rcases List.mem_append.mp ha with ha | ha
    · exact h _ _ _ hitem a (Option.mem_toList.mp ha)
    · exact ih _ _ hrest a ha
  | case4 s found more rest hitem _ =>
    cases has
    exact fun a ha => h _ _ _ hitem a (Option.mem_toList.mp ha)

theorem listUpTo {item : Parser α} (h : item.Yields Q) (close : Punct) :
    (listUpTo close item).Yields fun as => ∀ a ∈ as, Q a := by
  refine bind (collect (Q := Q) (after fun l => ?_)) fun as has => after fun _ => pure has
  split
  · exact pure (by simp)
  · exact h.bind fun a ha => after fun more => pure (by simpa using ha)

end Yields

end Parser

/-! ## Instructions -/

theorem Operand.yields_read : Operand.read.Yields fun a => a.isValue := by
  refine .after fun l => ?_
  split
  · exact .after fun _ => .pure rfl
  · exact .after fun _ => .pure rfl
  · split
    · exact .after fun _ => .pure rfl
    · exact .fail
  · split
    · exact .after fun _ => .pure rfl
    · exact .fail
  · exact .fail

theorem Operand.yields_readLabel : Operand.readLabel.Yields fun a => ∃ l, a = .label l := by
  refine .after fun found => ?_
  split
  · exact .after fun _ => .after fun name => .pure ⟨name, rfl⟩
  · exact .after fun _ => .fail

namespace Instr

/-- What stands behind the mnemonic fits the opcode. -/
def Body.Regular (body : Body) : Prop := body.1.Takes body.2.1

theorem yields_readPair {op : Opcode}
    (h : ∀ {a b : Operand}, a.isValue → b.isValue → op.Takes [a, b]) :
    (readPair op).Yields Body.Regular :=
  .after fun _ => Operand.yields_read.bind fun _ ha => .after fun _ =>
    Operand.yields_read.bind fun _ hb => .pure (h ha hb)

theorem yields_readStore : readStore.Yields Body.Regular :=
  .after fun _ => Operand.yields_read.bind fun _ hv => .after fun _ => .after fun _ =>
    Operand.yields_read.bind fun _ hp => .pure (.store hv hp)

theorem yields_readLoad : readLoad.Yields Body.Regular :=
  .after fun _ => .after fun _ => .after fun _ => Operand.yields_read.bind fun _ hp =>
    .pure (.load hp)

theorem yields_readBr : readBr.Yields Body.Regular := by
  refine .after fun found => ?_
  split
  · refine Operand.yields_readLabel.bind fun a ha => ?_
    obtain ⟨l, rfl⟩ := ha
    exact .pure (.jump l)
  · refine .after fun _ => Operand.yields_read.bind fun cond hcond => .after fun _ =>
      Operand.yields_readLabel.bind fun a ha => .after fun _ =>
      Operand.yields_readLabel.bind fun b hb => ?_
    obtain ⟨whenTrue, rfl⟩ := ha
    obtain ⟨whenFalse, rfl⟩ := hb
    exact .pure (.branch whenTrue whenFalse hcond)

theorem yields_readIcmp : readIcmp.Yields Body.Regular := by
  refine .after fun keyword => ?_
  split
  · next p _ => exact yields_readPair (.icmp p)
  · exact .fail

theorem yields_readCall : readCall.Yields Body.Regular := by
  have harg : Parser.Yields (do let _ ← Ty.read; Parser.skipWhile Operand.isAttribute; Operand.read)
      fun a => a.isValue := .after fun _ => .after fun _ => Operand.yields_read
  exact .after fun _ => .after fun _ => .after fun callee => .after fun _ =>
    (harg.listUpTo .rightParen).bind fun args hargs => .pure (.call callee hargs)

theorem yields_readRet : readRet.Yields Body.Regular := by
  refine .after fun found => ?_
  split
  · exact .after fun _ => .pure .retVoid
  · exact .after fun _ => Operand.yields_read.bind fun _ hv => .pure (.ret hv)

theorem yields_readGetelementptr : readGetelementptr.Yields Body.Regular := by
  refine .after fun _ => .after fun _ => .after fun _ =>
    Operand.yields_read.bind fun base hbase => ?_
  refine Parser.Yields.bind (.collect (Q := fun a => a.isValue) ?_) fun indices hindices =>
    .pure (.getelementptr hbase hindices)
  refine .after fun comma => ?_
  split
  · exact .pure (by simp)
  · refine .after fun align => ?_
    split
    · exact .pure (by simp)
    · exact .after fun _ => Operand.yields_read.bind fun a ha => .pure (by simpa using ha)

theorem yields_readBitcast : readBitcast.Yields Body.Regular := by
  refine .after fun _ => Operand.yields_read.bind fun value hv => .after fun found => ?_
  split
  · exact .after fun _ => .after fun _ => .pure (.bitcast hv)
  · exact .fail

theorem yields_readUnknown (name : String) : (readUnknown name).Yields Body.Regular := by
  intro s body s' h
  cases h
  refine .unsupported name fun a ha => ?_
  obtain ⟨t, -, ht⟩ := List.mem_filterMap.mp ha
  split at ht
  · next reg _ => exact ⟨reg, (Option.some.inj ht).symm⟩
  · cases ht

theorem yields_readBody (mnemonic : String) : (readBody mnemonic).Yields Body.Regular := by
  unfold readBody
  split
  · exact .after fun _ => .pure .alloca
  · exact yields_readStore
  · exact yields_readLoad
  · exact yields_readBr
  · exact yields_readIcmp
  · exact yields_readCall
  · exact yields_readRet
  · exact yields_readGetelementptr
  · exact yields_readBitcast
  · split
    · next op _ => exact yields_readPair (.arith op)
    · exact yields_readUnknown _

theorem yields_read : Instr.read.Yields Regular :=
  .after fun _ => .after fun _ => .after fun mnemonic => .after fun _ =>
    (yields_readBody mnemonic).bind fun _ hbody => .after fun _ => .pure hbody

end Instr

/-! ## Functions -/

/-- The statement is a label, or an instruction that satisfies `Q`. -/
def Statement.Holds (Q : Instr → Prop) : Statement → Prop
  | .label _ => True
  | .instr i => Q i

theorem Statement.yields_read {Q : Instr → Prop} (h : Instr.read.Yields Q) (function : String) :
    (Statement.read function).Yields fun x => ∀ st ∈ x.1, st.Holds Q := by
  refine .after fun _ => .after fun second => .after fun first => ?_
  split
  · exact .after fun _ => .pure (by simp)
  · exact .fail
  · exact .after fun _ => .after fun _ => .pure (by simp [Holds])
  · exact .after fun _ => .after fun _ => .pure (by simp [Holds])
  · exact h.bind fun i hi => .pure (by simpa [Holds] using hi)

namespace Block

theorem mem_of_leading {i : Instr} {body : List Statement} (h : i ∈ Statement.leading body) :
    .instr i ∈ body := by
  fun_induction Statement.leading body with
  | case1 j rest ih =>
    rcases List.mem_cons.mp h with rfl | h
    · exact List.mem_cons_self
    · exact List.mem_cons_of_mem _ (ih h)
  | case2 => cases h

theorem of_mem_labelled {b : Block} {body : List Statement} (h : b ∈ labelled body) :
    b.label.isSome ∧ ∀ i ∈ b.instrs, .instr i ∈ body := by
  fun_induction labelled body with
  | case1 => cases h
  | case2 name rest ih =>
    rcases List.mem_cons.mp h with rfl | h
    · exact ⟨rfl, fun i hi => List.mem_cons_of_mem _ (mem_of_leading hi)⟩
    · exact ⟨(ih h).1, fun i hi => List.mem_cons_of_mem _ ((ih h).2 i hi)⟩
  | case3 j rest ih => exact ⟨(ih h).1, fun i hi => List.mem_cons_of_mem _ ((ih h).2 i hi)⟩

/-- The labelled blocks, behind a block without a label if instructions lead the body. -/
theorem group_cases (body : List Statement) :
    group body = labelled body ∨ Statement.leading body ≠ [] ∧
      group body = ⟨none, Statement.leading body⟩ :: labelled body := by
  by_cases h : Statement.leading body = []
  · exact .inl (by simp [group, h])
  · exact .inr ⟨h, by simp [group, h]⟩

theorem mem_of_group {b : Block} {i : Instr} {body : List Statement} (hb : b ∈ group body)
    (hi : i ∈ b.instrs) : .instr i ∈ body := by
  rcases group_cases body with heq | ⟨-, heq⟩ <;> rw [heq] at hb
  · exact (of_mem_labelled hb).2 i hi
  · rcases List.mem_cons.mp hb with rfl | hb
    · exact mem_of_leading hi
    · exact (of_mem_labelled hb).2 i hi

/-- The label of a block and its instructions. -/
def statements (b : Block) : List Statement := (b.label.map .label).toList ++ b.instrs.map .instr

theorem statements_labelled (body : List Statement) :
    (Statement.leading body).map .instr ++ (labelled body).flatMap statements = body := by
  induction body with
  | nil => rfl
  | cons st rest ih =>
    cases st with
    | instr i => exact congrArg (Statement.instr i :: ·) ih
    | label name => simpa [Statement.leading, labelled, statements] using ih

/-- Grouping loses nothing. -/
theorem statements_group (body : List Statement) : (group body).flatMap statements = body := by
  have h := statements_labelled body
  by_cases hlead : Statement.leading body = []
  · simpa [group, hlead] using h
  · simpa [group, hlead, statements] using h

theorem mem_group_of_instr {i : Instr} {body : List Statement} (h : .instr i ∈ body) :
    i ∈ (group body).flatMap instrs := by
  rw [← statements_group body] at h
  obtain ⟨b, hb, hi⟩ := List.mem_flatMap.mp h
  exact List.mem_flatMap.mpr ⟨b, hb, by simpa [statements] using hi⟩

theorem mem_group_of_label {name : String} {body : List Statement} (h : .label name ∈ body) :
    name ∈ (group body).filterMap label := by
  rw [← statements_group body] at h
  obtain ⟨b, hb, hi⟩ := List.mem_flatMap.mp h
  exact List.mem_filterMap.mpr ⟨b, hb, by simpa [statements] using hi⟩

end Block

/-- The blocks are made from labels and instructions that satisfy `Q`. -/
def Function.Built (Q : Instr → Prop) (f : Function) : Prop :=
  ∃ body, f.blocks = Block.group body ∧ ∀ st ∈ body, st.Holds Q

namespace Function

theorem Built.of_mem {Q : Instr → Prop} {f : Function} (hf : f.Built Q) {i : Instr}
    (hi : i ∈ f.instrs) : Q i := by
  obtain ⟨body, hblocks, h⟩ := hf
  obtain ⟨b, hb, hi⟩ := List.mem_flatMap.mp hi
  exact h _ (Block.mem_of_group (hblocks ▸ hb) hi)

theorem Built.regular {f : Function} (hf : f.Built Instr.Regular) : f.Regular where
  label b hb := by
    obtain ⟨body, hblocks, -⟩ := hf
    rcases Block.group_cases body with heq | ⟨-, heq⟩ <;> rw [hblocks, heq] at hb
    · exact (Block.of_mem_labelled (List.mem_of_mem_tail hb)).1
    · exact (Block.of_mem_labelled hb).1
  nonempty b hb hnone := by
    obtain ⟨body, hblocks, -⟩ := hf
    rcases Block.group_cases body with heq | ⟨hne, heq⟩ <;> rw [hblocks, heq] at hb
    · simpa [hnone] using (Block.of_mem_labelled hb).1
    · rcases List.mem_cons.mp hb with rfl | hb
      · exact hne
      · simpa [hnone] using (Block.of_mem_labelled hb).1
  instr _ hi := hf.of_mem hi

theorem yields_read {Q : Instr → Prop} (h : Instr.read.Yields Q) :
    Function.read.Yields (Built Q) := by
  refine .after fun _ => .after fun _ => .after fun ret => .after fun name => .after fun _ =>
    .after fun params => .after fun _ => .after fun found => ?_
  have hbody : Parser.Yields (do
      Parser.advance
      let body ← Parser.collect (Statement.read name)
      return { name, ret, params, blocks := Block.group body }) (Built Q) :=
    .after fun _ => (Statement.yields_read h name).collect.bind fun body hbody =>
      .pure ⟨body, rfl, hbody⟩
  dsimp only
  split
  · exact .after fun _ => hbody
  · exact hbody

end Function

/-! ## Modules -/

namespace Module

variable {Q : Instr → Prop}

theorem Item.yields_read (h : Instr.read.Yields Q) :
    Item.read.Yields fun x => ∀ item ∈ x.1, ∀ f ∈ item.function?, f.Built Q := by
  refine .after fun _ => .after fun l => ?_
  split
  · exact .pure (by simp)
  · exact .after fun _ => .pure (by simp [function?])
  · exact (Function.yields_read h).bind fun f hf => .pure (by simpa [function?] using hf)
  · exact .after fun _ => .pure (by simp)
  · exact .after fun _ => .pure (by simp)
  · exact .after fun _ => .pure (by simp)
  · exact .after fun _ => .pure (by simp)
  · exact .fail

theorem yields_read (h : Instr.read.Yields Q) :
    Module.read.Yields fun m => ∀ f ∈ m.functions, f.Built Q := by
  refine (Item.yields_read h).collect.bind fun items hitems => .pure fun f hf => ?_
  obtain ⟨item, hitem, hf⟩ := List.mem_filterMap.mp hf
  exact hitems item hitem f hf

/-- What holds of every instruction that is read holds of those of a source text. -/
theorem built_of_parse (h : Instr.read.Yields Q) {source : String} {m : Module}
    (hm : parse source = .ok m) : ∀ f ∈ m.functions, f.Built Q := by
  obtain ⟨s, -, hm⟩ := bind_ok_iff.mp hm
  obtain ⟨⟨m', s'⟩, hread, hm⟩ := bind_ok_iff.mp hm
  cases hm
  exact yields_read h _ _ _ hread

theorem regular_of_parse {source : String} {m : Module} (h : parse source = .ok m) :
    ∀ f ∈ m.functions, f.Regular :=
  fun f hf => (built_of_parse Instr.yields_read h f hf).regular

end Module

end IrAsm
