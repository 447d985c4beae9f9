import IrAsm.Proofs.Shape
import IrAsm.Proofs.X86.Select

/-!
# Faults that reading rules out

Selection takes apart the operands of an instruction and fails if there are too few of them, or if
one is a label or the target of a call where a value has to stand. `Error.isShapeFault` names these
errors. An instruction with the operands that its opcode takes meets none of them, so no module that
was read does: `Never` follows from the operands to the instruction, from all points to the
function, and from there to the module.
-/

namespace IrAsm

/-- The computation does not fail with an error of this kind. -/
def Never {ε α : Type} (bad : ε → Bool) (x : Except ε α) : Prop := ∀ e, x = .error e → bad e = false

namespace Never

variable {ε ε' α β : Type} {bad : ε → Bool} {x : Except ε α}

theorem ok (a : α) : Never bad (.ok a) := by
  intro e h
  cases h

theorem error {e : ε} (h : bad e = false) : Never bad (.error e : Except ε α) := by
  rintro e' ⟨⟩
  exact h

theorem bind {k : α → Except ε β} (h : Never bad x) (hk : ∀ a, x = .ok a → Never bad (k a)) :
    Never bad (x >>= k) := by
  cases x with
  | error e => exact error (h e rfl)
  | ok a => exact hk a rfl

theorem map (h : Never bad x) (g : α → β) : Never bad (x.map g) := by
  cases x with
  | error e => exact error (h e rfl)
  | ok a => exact ok _

theorem mapError {bad' : ε' → Bool} {g : ε → ε'} (h : Never bad x)
    (hg : ∀ e, bad e = false → bad' (g e) = false) : Never bad' (x.mapError g) := by
  cases x with
  | error e => exact error (hg e (h e rfl))
  | ok a => exact ok a

theorem mapM {xs : List α} {k : α → Except ε β} (h : ∀ a ∈ xs, Never bad (k a)) :
    Never bad (xs.mapM k) := by
  induction xs with
  | nil => exact ok _
  | cons a xs ih =>
    rw [List.mapM_cons]
    exact (h a List.mem_cons_self).bind fun _ _ =>
      (ih fun b hb => h b (List.mem_cons_of_mem a hb)).bind fun _ _ => ok _

theorem forM {xs : List α} {k : α → Except ε Unit} (h : ∀ a ∈ xs, Never bad (k a)) :
    Never bad (xs.forM k) := by
  induction xs with
  | nil => exact ok _
  | cons a xs ih =>
    rw [List.forM]
    exact (h a List.mem_cons_self).bind fun _ _ => ih fun b hb => h b (List.mem_cons_of_mem a hb)

theorem foldlM {xs : List α} {k : β → α → Except ε β}
    (h : ∀ a ∈ xs, ∀ acc, Never bad (k acc a)) (acc : β) : Never bad (xs.foldlM k acc) := by
  induction xs generalizing acc with
  | nil => exact ok _
  | cons a xs ih =>
    rw [List.foldlM_cons]
    exact (h a List.mem_cons_self acc).bind fun _ _ =>
      ih (fun b hb => h b (List.mem_cons_of_mem a hb)) _

end Never

/-- A block behind the first one has no label, or a branch has neither one operand nor three. -/
def VerifyFault.isShapeFault : VerifyFault → Bool
  | .unlabeledBlock | .branchShape _ => true
  | _ => false

/-- An operand is missing, a branch or a call has the wrong operands, or an operand that is no value
stands where a value or an address is needed. -/
def Error.isShapeFault : Error → Bool
  | .verify _ fault => fault.isShapeFault
  | .malformed (.missingOperand _ _) | .malformed (.branchShape _ _) | .malformed (.callTarget _)
  | .malformed (.notValue _ _) => true
  | .malformed (.notAddress a _) => !a.isValue
  | _ => false

/-! ## Verification -/

namespace Function

theorem never_checkLaterLabels {blocks : List Block} (h : ∀ b ∈ blocks, b.label.isSome)
    (seen : NameSet) : Never VerifyFault.isShapeFault (checkLaterLabels seen blocks) := by
  induction blocks generalizing seen with
  | nil => exact .ok _
  | cons b rest ih =>
    refine .bind ?_ fun seen _ => ih (fun b' hb' => h b' (List.mem_cons_of_mem b hb')) seen
    obtain ⟨label, hlabel⟩ := Option.isSome_iff_exists.mp (h b List.mem_cons_self)
    rw [Block.checkLabel, hlabel]
    dsimp only
    split
    · exact .error rfl
    · exact .ok _

theorem never_checkLabels {f : Function} (h : f.Regular) :
    Never VerifyFault.isShapeFault (checkLabels f.blocks) := by
  have hlabel := h.label
  cases hblocks : f.blocks with
  | nil => exact .ok _
  | cons entry rest =>
    rw [hblocks] at hlabel
    refine .bind ?_ fun seen _ => never_checkLaterLabels hlabel seen
    rw [Block.checkLabel]
    split
    · split
      · exact .error rfl
      · exact .ok _
    · exact .ok _

end Function

theorem Instr.never_check {i : Instr} (h : i.Regular) (labels defined : NameSet) :
    Never VerifyFault.isShapeFault (i.check labels defined) := by
  have hresult : Never VerifyFault.isShapeFault (i.checkResult defined) := by
    rw [checkResult]
    split
    · exact .ok _
    · split
      · exact .error rfl
      · exact .ok _
  have htargets : Never VerifyFault.isShapeFault (i.checkTargets labels) := by
    rw [checkTargets]
    split
    · exact .error rfl
    · exact .ok _
  have hshape : Never VerifyFault.isShapeFault i.checkShape := by
    rw [checkShape, if_neg]
    · exact .ok _
    · rintro ⟨hbr, hone, hthree⟩
      -- of all opcodes only a branch is left, with one operand or three
      obtain ⟨opcode, operands, result, ty⟩ := i
      cases h <;> simp_all
  exact hresult.bind fun _ _ => htargets.bind fun _ _ => hshape.bind fun _ _ => .ok _

theorem Block.never_check {b : Block} (h : ∀ i ∈ b.instrs, i.Regular) (labels defined : NameSet) :
    Never VerifyFault.isShapeFault (b.check labels defined) := by
  refine .bind ?_ fun _ _ =>
    .foldlM (fun i hi defined => Instr.never_check (h i hi) labels defined) defined
  rw [checkEnd]
  split
  · exact .error rfl
  · split
    · exact .ok _
    · exact .error rfl

theorem Function.never_verify {f : Function} (h : f.Regular) :
    Never Error.isShapeFault f.verify := by
  have hblocks (labels : NameSet) : Never VerifyFault.isShapeFault
      (f.blocks.foldlM (Block.check labels) (NameSet.ofList (f.params.map Param.name))) :=
    .foldlM (fun b hb defined =>
      Block.never_check (fun i hi => h.instr i (List.mem_flatMap.mpr ⟨b, hb, hi⟩)) labels defined) _
  have hcheck : Never VerifyFault.isShapeFault f.check := by
    refine (never_checkLabels h).bind fun labels _ => ?_
    dsimp only
    split
    · exact .error rfl
    · exact (hblocks labels).bind fun _ _ => .ok _
  exact hcheck.mapError fun _ he => he

/-! ## Selection

An instruction fails badly only if one of its operands or its result does, or its form. -/

theorem Flow.never_start {bad : Error → Bool} {function : String}
    (h : ∀ label, bad (.malformed (.undefinedLabel label function)) = false) (fl : Flow)
    (label : String) : Never bad (fl.start function label) := by
  rw [start]
  split
  · exact .ok _
  · exact .error (h label)

namespace X86.Context

variable {c : Context} {s : State} {i : IrAsm.Instr} {idx : Nat}

section
variable {bad : Error → Bool} (hd : Never bad (c.dest i))
  (hv : ∀ a ∈ i.operands, Never bad (c.value s a)) (hm : ∀ a ∈ i.operands, Never bad (c.memory s a))

theorem mem_operands {n : Nat} {a : Operand} (h : operand i n = .ok a) : a ∈ i.operands :=
  List.mem_of_getElem? (operand_ok_iff.mp h)

section
include hd hv

theorem never_selectPair {eval? : Word → Word → Option Word} {code : Loc → Loc → Reg → List Instr}
    (hl : Never bad (operand i 0)) (hr : Never bad (operand i 1)) :
    Never bad (c.selectPair s i eval? code) := by
  refine hl.bind fun a ha => (hv a (mem_operands ha)).bind fun l _ => ?_
  refine hr.bind fun b hb => (hv b (mem_operands hb)).bind fun r _ => hd.bind fun dst _ => ?_
  split
  · exact .ok _
  · exact .ok _

theorem never_selectBitcast (h : Never bad (operand i 0)) : Never bad (c.selectBitcast s i) :=
  h.bind fun a ha => (hv a (mem_operands ha)).bind fun _ _ => hd.bind fun _ _ => .ok _

theorem never_selectAddress (h : bad (.malformed (.addressShape i)) = false) :
    Never bad (c.selectAddress s i) := by
  rw [selectAddress]
  split
  · next base first rest heq =>
    have hbase := hv base (heq ▸ List.mem_cons_self)
    have hindex :=
      hv _ (heq ▸ List.mem_cons_of_mem base (List.getLast_mem (List.cons_ne_nil first rest)))
    dsimp only
    split
    · exact hd.bind fun _ _ => hindex.bind fun _ _ => hbase.bind fun _ _ => .ok _
    · exact .error h
  · exact .error h

end

include hd in
theorem never_selectCall (hargs : ∀ a ∈ i.operands.dropLast, Never bad (c.value s a))
    (h : (∃ callee, i.operands.getLast? = some (.callee callee)) ∨
      bad (.malformed (.callTarget i)) = false) : Never bad (c.selectCall s idx i) := by
  rw [selectCall]
  split
  · refine (Never.mapM hargs).bind fun locs _ => ?_
    split
    · exact hd.bind fun _ _ => .ok _
    · exact .ok _
  · next hother =>
    rcases h with ⟨callee, hcallee⟩ | h
    · exact absurd hcallee (hother callee)
    · exact .error h

include hv in
theorem never_selectRet : Never bad (c.selectRet s i) := by
  rw [selectRet]
  split
  · exact .ok _
  · next a rest heq => exact (hv a (heq ▸ List.mem_cons_self)).bind fun _ _ => .ok _

include hd hm in
theorem never_selectLoad (h : Never bad (operand i 0)) : Never bad (c.selectLoad s i) :=
  hd.bind fun _ _ => h.bind fun a ha => (hm a (mem_operands ha)).bind fun _ _ => .ok _

include hv hm in
theorem never_selectStore (hsrc : Never bad (operand i 0)) (hdst : Never bad (operand i 1)) :
    Never bad (c.selectStore s i) := by
  refine hsrc.bind fun a ha => hdst.bind fun b hb => ?_
  split
  · exact .ok _
  · exact (hv a (mem_operands ha)).bind fun _ _ => (hm b (mem_operands hb)).bind fun _ _ => .ok _

end

/-! ## Operands of the right shape -/

theorem never_colored (name : String) : Never Error.isShapeFault (c.colored name) := by
  rw [colored]
  split
  · exact .ok _
  · exact .error rfl

theorem never_dest : Never Error.isShapeFault (c.dest i) := by
  rw [dest]
  split
  · exact never_colored _
  · exact .error rfl

theorem never_register (name : String) : Never Error.isShapeFault (c.register s name) := by
  rw [register]
  split
  · exact .ok _
  · exact .ok _
  · split
    · exact .error rfl
    · exact (never_colored name).map _

theorem never_value {a : Operand} (h : a.isValue) : Never Error.isShapeFault (c.value s a) := by
  cases a with
  | imm v => exact .ok _
  | reg name => exact never_register name
  | global name => exact .ok _
  | label _ => cases h
  | callee _ => cases h

theorem never_memory {a : Operand} (h : a.isValue) : Never Error.isShapeFault (c.memory s a) := by
  cases a with
  | imm v => exact .error rfl
  | reg name =>
    rw [memory]
    split
    · exact .ok _
    · exact (never_register name).bind fun _ _ => .ok _
  | global name => exact .ok _
  | label _ => cases h
  | callee _ => cases h

theorem never_selectJump {target : String} (h : i.operands = [.label target]) :
    Never Error.isShapeFault (c.selectBranch s idx i) := by
  rw [selectBranch, h]
  exact (Flow.never_start (fun _ => rfl) c.flow target).bind fun _ _ => .ok _

theorem never_selectBranch {cond : Operand} {whenTrue whenFalse : String}
    (h : i.operands = [cond, .label whenTrue, .label whenFalse]) (hcond : cond.isValue) :
    Never Error.isShapeFault (c.selectBranch s idx i) := by
  rw [selectBranch]
  split
  · next heq =>
    rw [h] at heq
    cases heq
  · next heq =>
    rw [h] at heq
    cases heq
    refine (Flow.never_start (fun _ => rfl) c.flow whenTrue).bind fun start _ => ?_
    dsimp only
    split
    · exact .error rfl
    · refine (never_value hcond).bind fun l _ => ?_
      split
      · exact .ok _
      · exact .ok _
  · next hother => exact absurd h (hother _ _ _)

theorem never_select (h : i.Regular) : Never Error.isShapeFault (c.select s idx i) := by
  obtain ⟨opcode, operands, result, ty⟩ := i
  cases h with
  | alloca => exact .ok _
  | store hv hp =>
    exact never_selectStore (by simp [never_value, hv, hp]) (by simp [never_memory, hv, hp])
      (.ok _) (.ok _)
  | load hp => exact never_selectLoad never_dest (by simp [never_memory, hp]) (.ok _)
  | jump target => exact never_selectJump (i := ⟨.br, [.label target], result, ty⟩) rfl
  | branch whenTrue whenFalse hcond => exact never_selectBranch rfl hcond
  | icmp p hl hr =>
    exact never_selectPair never_dest (by simp [never_value, hl, hr]) (.ok _) (.ok _)
  | arith op hl hr =>
    exact never_selectPair never_dest (by simp [never_value, hl, hr]) (.ok _) (.ok _)
  | call callee hargs =>
    refine never_selectCall never_dest (fun a ha => never_value (hargs a ?_)) (.inl ⟨callee, ?_⟩)
    · simpa using ha
    · simp
  | retVoid => exact never_selectRet (i := ⟨.ret, [], result, ty⟩) (by simp)
  | ret hv => exact never_selectRet (i := ⟨.ret, [_], result, ty⟩) (by simp [never_value, hv])
  | getelementptr hbase hindices =>
    have hrest := fun a ha => never_value (c := c) (s := s) (hindices a ha)
    exact never_selectAddress never_dest (List.forall_mem_cons.mpr ⟨never_value hbase, hrest⟩) rfl
  | bitcast hv => exact never_selectBitcast never_dest (by simp [never_value, hv]) (.ok _)
  | unsupported name hregs => exact .error rfl

theorem never_emitPoints {points : List (Point × Nat)} (h : ∀ p ∈ points, p.1.instr.Regular)
    (s : State) : Never Error.isShapeFault (c.emitPoints s points) := by
  induction points generalizing s with
  | nil => exact .ok _
  | cons p rest ih =>
    obtain ⟨p, idx⟩ := p
    rw [emitPoints]
    exact (never_select (h _ List.mem_cons_self)).bind fun x _ =>
      (ih (fun q hq => h q (List.mem_cons_of_mem _ hq)) x.1).bind fun _ _ => .ok _

theorem never_emit (h : ∀ p ∈ c.flow.points, p.instr.Regular) :
    Never Error.isShapeFault c.emit := by
  refine (never_emitPoints (fun p hp => h p.1 ?_) c.initial).bind fun _ _ => .ok _
  exact List.fst_mem_of_mem_zipIdx hp

end X86.Context

/-! ## Functions and modules -/

section
variable {bad : Error → Bool} {f : Function}
  (hlabel : ∀ label, bad (.malformed (.undefinedLabel label f.name)) = false)
include hlabel

theorem Flow.never_build : Never bad (Flow.build f) := by
  refine (Never.mapM fun p _ => ?_).bind fun _ _ => .ok _
  refine .bind ?_ fun _ _ => .ok _
  rw [succsOf]
  split
  · exact .ok _
  · split
    · exact .mapM fun l _ => never_start hlabel _ l
    · exact .ok _

theorem Function.never_analyze (hpast : bad (.branchPastEnd f.name) = false) :
    Never bad f.analyze := by
  refine (Flow.never_build hlabel).bind fun fl _ => .bind ?_ fun _ _ => .ok _
  rw [Flow.analyze]
  split
  · exact .ok _
  · exact .error hpast

end

theorem Config.never_check {bad : Error → Bool} (h : ∀ fault, bad (.config fault) = false)
    (config : Config) : Never bad config.check := by
  rw [check]
  split
  · exact .ok _
  · exact .error (h _)

theorem Function.never_compile {f : Function} (h : f.Regular) (config : Config) :
    Never Error.isShapeFault (f.compile config) := by
  refine (config.never_check fun _ => rfl).bind fun _ _ => ?_
  refine (never_analyze (fun _ => rfl) rfl).bind fun found hfound => ?_
  obtain ⟨fl, hfl, -, rfl⟩ := analyze_ok_iff.mp hfound
  have hfind (g : Graph) (nodes : NameSet) (k : Nat) :
      Never (fun _ => false) (Coloring.find g nodes k) := fun _ _ => rfl
  exact ((hfind _ _ _).mapError fun _ _ => rfl).bind fun _ _ =>
    (X86.Context.never_emit fun p hp => h.instr _ (Flow.instr_mem_of_build hfl hp)).bind
      fun _ _ => .ok _

theorem X86.Assembly.never_text (fileName : Option String) (globals : List Global)
    (functions : List (List String)) :
    Never Error.isShapeFault (text fileName globals functions) := by
  refine .bind (.bind (.mapM fun g _ => ?_) fun _ _ => .ok _) fun _ _ => .ok _
  rw [globalLines]
  split
  · exact .ok _
  · exact .error rfl

namespace Module

theorem never_checkGlobals (seen : NameSet) (globals : List Global) :
    Never VerifyFault.isShapeFault (checkGlobals seen globals) := by
  induction globals generalizing seen with
  | nil => exact .ok _
  | cons g rest ih =>
    rw [checkGlobals]
    split
    · exact .error rfl
    · exact ih _

theorem never_verify {m : Module} (h : ∀ f ∈ m.functions, f.Regular) :
    Never Error.isShapeFault m.verify := by
  have hglobals : Never Error.isShapeFault
      ((checkGlobals ∅ m.globals).mapError (Error.verify "")) :=
    (never_checkGlobals ∅ m.globals).mapError fun _ he => he
  exact hglobals.bind fun _ _ => .forM fun f hf => Function.never_verify (h f hf)

theorem never_compile {m : Module} (h : ∀ f ∈ m.functions, f.Regular) (config : Config) :
    Never Error.isShapeFault (m.compile config) := by
  refine (config.never_check fun _ => rfl).bind fun _ _ => (never_verify h).bind fun _ _ =>
    .bind ?_ fun _ _ =>
    (X86.Assembly.never_text _ _ _).bind fun _ _ => .ok _
  exact .mapM fun f hf => Function.never_compile (h f hf) config

/-- A module that was read has instructions with the operands that their opcodes take, in blocks of
which only the first can be without a label, and then is not empty. So whatever stops it from being
compiled, it is no missing operand, no branch or call of the wrong form, and no label or callee in
place of a value. -/
theorem parsed_well_shaped {source : String} {m : Module} (h : parse source = .ok m) :
    (∀ f ∈ m.functions, f.Regular) ∧
    (∀ f ∈ m.functions, ∀ config, Never Error.isShapeFault (f.compile config)) ∧
    ∀ config, Never Error.isShapeFault (m.compile config) := by
  have hregular := regular_of_parse h
  exact ⟨hregular, fun f hf => Function.never_compile (hregular f hf), never_compile hregular⟩

/-- A text with most kinds of instructions, one of them unknown. -/
def mixedText : String := "
  @total = global i64 0
  define i64 @f(i64 %n) \x7b
    %slot = alloca i64
    store i64 %n, i64* %slot
    br label %loop
  loop:
    %v = load i64, i64* %slot
    %p = getelementptr i64, i64* @total, i64 %v
    %c = icmp eq i64 %v, 0
    br i1 %c, label %done, label %loop
  done:
    %q = bitcast i64* %p to i8*
    %r = call i64 @g(i8* %q, i64 7)
    %s = fneg double %r
    ret i64 %r
  \x7d"

set_option maxRecDepth 2000 in
theorem parsed_well_shaped_mixedText : ∃ m, parse mixedText = .ok m ∧
    m.functions.map (fun f => f.blocks.map fun b => (b.label, b.instrs.length)) =
      [[(none, 3), (some "loop", 4), (some "done", 4)]] ∧
    (∀ f ∈ m.functions, f.Regular) ∧
    m.compile {} = .error (.unsupported "f" "fneg") ∧
    Error.isShapeFault (.unsupported "f" "fneg") = false := by
  have hchars : mixedText.toList = _ := String.toList_ofList
  have heval : (parse mixedText).map (fun m => (m.functions.map fun f =>
      f.blocks.map fun b => (b.label, b.instrs.length), m.compile {})) =
        .ok ([[(none, 3), (some "loop", 4), (some "done", 4)]],
          .error (.unsupported "f" "fneg")) := by
    rw [parse, TokenStream.scan, hchars]
    decide +kernel
  obtain ⟨m, hm, heval⟩ := map_ok_iff.mp heval
  obtain ⟨hblocks, hcompile⟩ := Prod.mk.inj heval
  have h := parsed_well_shaped hm
  exact ⟨m, hm, hblocks, h.1, hcompile, h.2.2 _ _ hcompile⟩

end Module

end IrAsm
