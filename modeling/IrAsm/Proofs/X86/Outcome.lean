import IrAsm.Proofs.Core
import IrAsm.Proofs.X86.States

/-!
# What the configuration decides

Two runs of selection on one function can differ in the registers that its temporaries have, and in
what was folded. Neither decides whether they succeed, or how they fail. Every temporary has some
register in both, and a name that was folded in one run is a temporary: it has a register in the
other run if it was not folded there. The words of locals are the same in both. So `Alike` follows
from one instruction to all points, and the number of registers decides only whether a coloring is
found.
-/

namespace IrAsm

/-- Both succeed, or both fail with the same error. -/
inductive Alike {ε α β : Type} : Except ε α → Except ε β → Prop where
  | ok (a : α) (b : β) : Alike (.ok a) (.ok b)
  | error (e : ε) : Alike (.error e) (.error e)

namespace Alike

variable {ε α β γ δ : Type} {x : Except ε α} {y : Except ε β} {k : α → Except ε γ}
  {k' : β → Except ε δ}

theorem symm (h : Alike x y) : Alike y x := by
  cases h with
  | ok a b => exact .ok b a
  | error e => exact .error e

theorem of_ok (hx : ∃ a, x = .ok a) (hy : ∃ b, y = .ok b) : Alike x y := by
  obtain ⟨a, rfl⟩ := hx
  obtain ⟨b, rfl⟩ := hy
  exact .ok a b

theorem bind (h : Alike x y) (hk : ∀ a b, x = .ok a → y = .ok b → Alike (k a) (k' b)) :
    Alike (x >>= k) (y >>= k') := by
  cases h with
  | ok a b => exact hk a b rfl rfl
  | error e => exact .error e

theorem bind_left {k' : α → Except ε δ} (hk : ∀ a, x = .ok a → Alike (k a) (k' a)) :
    Alike (x >>= k) (x >>= k') := by
  cases x with
  | ok a => exact hk a rfl
  | error e => exact .error e

theorem map (h : Alike x y) (g : α → γ) (g' : β → δ) : Alike (x.map g) (y.map g') := by
  cases h with
  | ok a b => exact .ok _ _
  | error e => exact .error e

/-- What does not depend on the results is the same. -/
theorem map_map_eq (h : Alike x y) {m : α → γ} {m' : β → γ} {g : γ → δ}
    (hg : ∀ a b, g (m a) = g (m' b)) : (x.map m).map g = (y.map m').map g := by
  cases h with
  | ok a b => exact congrArg Except.ok (hg a b)
  | error e => rfl

theorem mapM {xs : List α} {k : α → Except ε γ} {k' : α → Except ε δ}
    (h : ∀ a, Alike (k a) (k' a)) : Alike (xs.mapM k) (xs.mapM k') := by
  induction xs with
  | nil => exact .ok _ _
  | cons a xs ih =>
    rw [List.mapM_cons, List.mapM_cons]
    exact (h a).bind fun _ _ _ _ => ih.bind fun _ _ _ _ => .ok _ _

theorem exists_ok (h : Alike x y) {a : α} (ha : x = .ok a) : ∃ b, y = .ok b := by
  cases h with
  | ok _ b => exact ⟨b, rfl⟩
  | error e => cases ha

theorem eq_error (h : Alike x y) {e : ε} (he : x = .error e) : y = .error e := by
  cases h with
  | ok a b => cases he
  | error e' => cases he; rfl

end Alike

namespace X86.Context

/-- Two contexts for the same function. Their colorings can differ, and what the code has to be
like. -/
structure Akin (c c' : Context) : Prop where
  function : c'.function = c.function
  flow : c'.flow = c.flow
  left : c.Faithful
  right : c'.Faithful

/-! ## Names -/

/-- What was folded is a temporary, and not a local. -/
theorem Faithful.temporary_of_known {c : Context} (hc : c.Faithful) {n : Nat} {s : State}
    (hs : c.StateAt n s) {x : String} (hx : s.known[x]?.isSome) :
    x ∈ c.flow.temporaries ∧ x ∉ c.flow.allocas := by
  obtain ⟨-, k, q, -, hq, hw, -⟩ := hs.exists_of_known hx
  have hmem := List.mem_of_getElem? hq
  obtain ⟨hbody, hop⟩ := Function.mem_body.mp (hc.flow.instr_mem_body hmem)
  refine ⟨Flow.mem_temporaries.mpr ⟨q, hmem, .inr (hc.flow.defs q hmem ▸ hw)⟩, fun hslot => ?_⟩
  obtain ⟨i, hi, hi', hresult⟩ := (hc.flow.allocas x).mp hslot
  obtain rfl := Instr.eq_of_result hc.wellFormed.results hbody hi (Flow.mem_writes hw) hresult
  exact hop hi'

theorem Faithful.colored_eq_error {c : Context} (hc : c.Faithful) {x : String}
    (hx : x ∉ c.flow.temporaries) :
    c.colored x = .error (.internal c.function.name (.noRegister x)) := by
  have hnone : (c.coloring.get? x).bind Reg.ofColor? = none := by
    by_contra hsome
    obtain ⟨r, hr⟩ := Option.ne_none_iff_exists'.mp hsome
    exact hx (hc.mem_temporaries_of_colored (colored_ok_iff.mpr hr))
  rw [colored, hnone]

namespace Akin

variable {c c' : Context}

theorem symm (h : c.Akin c') : c'.Akin c := ⟨h.function.symm, h.flow.symm, h.right, h.left⟩

theorem stackParam?_eq (h : c.Akin c') (x : String) : c'.stackParam? x = c.stackParam? x := by
  rw [stackParam?, h.function, stackParam?]

theorem binding?_eq (h : c.Akin c') (x : String) (i : IrAsm.Instr) :
    c'.binding? x i = c.binding? x i := by
  simp only [binding?, h.stackParam?_eq]

theorem wordAt_eq (h : c.Akin c') (x : String) (n : Nat) : c'.wordAt x n = c.wordAt x n := by
  induction n with
  | zero => rw [wordAt, initial, h.flow, wordAt, initial]
  | succ n ih => simp only [wordAt, ih, h.flow, h.binding?_eq]

theorem colored (h : c.Akin c') (x : String) : Alike (c.colored x) (c'.colored x) := by
  by_cases hx : x ∈ c.flow.temporaries
  · obtain ⟨r, hr⟩ := h.left.exists_colored hx
    obtain ⟨r', hr'⟩ := h.right.exists_colored (h.flow ▸ hx)
    rw [hr, hr']
    exact .ok r r'
  · rw [h.left.colored_eq_error hx, h.right.colored_eq_error (h.flow ▸ hx), h.function]
    exact .error _

theorem dest (h : c.Akin c') (i : IrAsm.Instr) : Alike (c.dest i) (c'.dest i) := by
  unfold Context.dest
  split
  · exact h.colored _
  · exact .error _

/-! ## Operands -/

section
variable {n : Nat} {s s' : State} (h : c.Akin c') (hs : c.StateAt n s) (hs' : c'.StateAt n s')
include h hs hs'

theorem displacement?_eq (x : String) : s'.frame.displacement? x = s.frame.displacement? x := by
  rw [hs.displacement?_eq, hs'.displacement?_eq, h.wordAt_eq]

theorem contains_eq (x : String) : s'.frame.contains x = s.frame.contains x := by
  rw [Bool.eq_iff_iff, hs.contains_iff, hs'.contains_iff, h.flow]

/-- A folded name can be read where it was not folded. -/
theorem exists_register {x : String} (hx : s.known[x]?.isSome) :
    ∃ loc, c'.register s' x = .ok loc := by
  obtain ⟨htemp, hslot⟩ := h.left.temporary_of_known hs hx
  obtain ⟨r, hr⟩ := h.right.exists_colored (h.flow.symm ▸ htemp)
  have hcontains : s'.frame.contains x = false := by
    rw [Bool.eq_false_iff, Ne, hs'.contains_iff, h.flow]
    exact hslot
  unfold Context.register
  split
  · exact ⟨_, rfl⟩
  · exact ⟨_, rfl⟩
  · rw [hcontains, hr]
    exact ⟨_, rfl⟩

theorem register_of_known {x : String} (hx : s.known[x]?.isSome) :
    Alike (c.register s x) (c'.register s' x) := by
  obtain ⟨v, hv⟩ := Option.isSome_iff_exists.mp hx
  have himm : c.register s x = .ok (.imm v) := by simp only [Context.register, hv]
  exact .of_ok ⟨_, himm⟩ (exists_register h hs hs' hx)

theorem register (x : String) : Alike (c.register s x) (c'.register s' x) := by
  by_cases hx : s.known[x]?.isSome
  · exact register_of_known h hs hs' hx
  by_cases hx' : s'.known[x]?.isSome
  · exact (register_of_known h.symm hs' hs hx').symm
  -- folded in neither run, so it is the frame and the coloring that decide
  rw [Option.not_isSome_iff_eq_none] at hx hx'
  simp only [Context.register, hx, hx', h.stackParam?_eq, contains_eq h hs hs', h.function]
  split
  · contradiction
  · exact .ok _ _
  · split
    · exact .error _
    · exact (h.colored x).map _ _

theorem value (a : Operand) : Alike (c.value s a) (c'.value s' a) := by
  cases a with
  | reg x => exact register h hs hs' x
  | imm v => exact .ok _ _
  | global x => exact .ok _ _
  | label l | callee x =>
    simp only [Context.value, h.function]
    exact .error _

theorem memory (a : Operand) : Alike (c.memory s a) (c'.memory s' a) := by
  cases a with
  | reg x =>
    simp only [Context.memory, displacement?_eq h hs hs']
    split
    · exact .ok _ _
    · exact (register h hs hs' x).bind fun _ _ _ _ => .ok _ _
  | global x => exact .ok _ _
  | imm v | label l | callee x =>
    simp only [Context.memory, h.function]
    exact .error _

/-! ## Instructions -/

variable (i : IrAsm.Instr)

theorem selectPair (eval? : Word → Word → Option Word) (seq : Loc → Loc → Reg → List Instr) :
    Alike (c.selectPair s i eval? seq) (c'.selectPair s' i eval? seq) := by
  refine .bind_left fun a _ => (value h hs hs' a).bind fun lhs lhs' _ _ => ?_
  refine .bind_left fun b _ => (value h hs hs' b).bind fun rhs rhs' _ _ => ?_
  -- either run may fold, and goes on in any case
  refine (h.dest i).bind fun dst dst' _ _ => .of_ok ?_ ?_
  · split
    · exact ⟨_, rfl⟩
    · exact ⟨_, rfl⟩
  · split
    · exact ⟨_, rfl⟩
    · exact ⟨_, rfl⟩

theorem selectBranch : Alike (c.selectBranch s n i) (c'.selectBranch s' n i) := by
  unfold Context.selectBranch
  split
  · rw [h.function, h.flow]
    exact .bind_left fun _ _ => .ok _ _
  · rw [h.function, h.flow]
    refine .bind_left fun start _ => ?_
    split
    · exact .error _
    · refine (value h hs hs' _).bind fun loc loc' _ _ => .of_ok ?_ ?_
      · split
        · exact ⟨_, rfl⟩
        · exact ⟨_, rfl⟩
      · split
        · exact ⟨_, rfl⟩
        · exact ⟨_, rfl⟩
  · rw [h.function]
    exact .error _

theorem selectCall : Alike (c.selectCall s n i) (c'.selectCall s' n i) := by
  unfold Context.selectCall
  split
  · refine (Alike.mapM (value h hs hs')).bind fun args args' _ _ => ?_
    split
    · exact (h.dest i).bind fun _ _ _ _ => .ok _ _
    · exact .ok _ _
  · exact .error _

theorem selectRet : Alike (c.selectRet s i) (c'.selectRet s' i) := by
  unfold Context.selectRet
  split
  · exact .ok _ _
  · exact (value h hs hs' _).bind fun _ _ _ _ => .ok _ _

theorem selectAddress : Alike (c.selectAddress s i) (c'.selectAddress s' i) := by
  unfold Context.selectAddress
  split
  · split
    · exact (h.dest i).bind fun _ _ _ _ => (value h hs hs' _).bind fun _ _ _ _ =>
        (value h hs hs' _).bind fun _ _ _ _ => .ok _ _
    · exact .error _
  · exact .error _

theorem selectBitcast : Alike (c.selectBitcast s i) (c'.selectBitcast s' i) :=
  .bind_left fun a _ => (value h hs hs' a).bind fun _ _ _ _ =>
    (h.dest i).bind fun _ _ _ _ => .ok _ _

theorem selectLoad : Alike (c.selectLoad s i) (c'.selectLoad s' i) :=
  (h.dest i).bind fun _ _ _ _ => .bind_left fun a _ =>
    (memory h hs hs' a).bind fun _ _ _ _ => .ok _ _

theorem bound?_eq (a b : Operand) : c'.bound? s' a b = c.bound? s a b := by
  unfold bound?
  split
  · rw [contains_eq h hs hs', h.stackParam?_eq]
  · rfl

theorem selectStore : Alike (c.selectStore s i) (c'.selectStore s' i) := by
  refine .bind_left fun a _ => .bind_left fun b _ => ?_
  rw [bound?_eq h hs hs']
  split
  · exact .ok _ _
  · exact (value h hs hs' a).bind fun _ _ _ _ => (memory h hs hs' b).bind fun _ _ _ _ => .ok _ _

theorem select : Alike (c.select s n i) (c'.select s' n i) := by
  unfold Context.select
  split
  · exact selectPair h hs hs' i _ _
  · exact selectPair h hs hs' i _ _
  · exact selectBranch h hs hs' i
  · exact selectCall h hs hs' i
  · exact selectRet h hs hs' i
  · exact selectAddress h hs hs' i
  · exact selectBitcast h hs hs' i
  · exact selectLoad h hs hs' i
  · exact selectStore h hs hs' i
  · exact .ok _ _
  · rw [h.function]
    exact .error _

end

/-! ## Points -/

theorem emitPoints {c c' : Context} {m : Nat} {s s' : State} (h : c.Akin c') (hs : c.StateAt m s)
    (hs' : c'.StateAt m s') :
    Alike (c.emitPoints s (c.flow.points.zipIdx.drop m))
      (c'.emitPoints s' (c.flow.points.zipIdx.drop m)) := by
  by_cases hm : m < c.flow.points.length
  · have hp : c.flow.points[m]? = some c.flow.points[m] := List.getElem?_eq_getElem hm
    rw [drop_zipIdx hp]
    refine (select h hs hs' _).bind fun x x' hx hx' => ?_
    -- both runs go on to the next point, each in a state of its own
    have hp' : c'.flow.points[m]? = some c.flow.points[m] := by rw [h.flow, hp]
    have hrest := emitPoints h (hs.succ hp hx) (hs'.succ hp' hx')
    exact hrest.bind fun _ _ _ _ => .ok _ _
  · rw [List.drop_eq_nil_of_le (by simpa using hm)]
    exact .ok _ _
termination_by c.flow.points.length - m

theorem emit (h : c.Akin c') : Alike c.emit c'.emit := by
  have hpoints := emitPoints h .zero .zero
  rw [List.drop_zero] at hpoints
  unfold Context.emit
  rw [h.flow]
  exact hpoints.bind fun _ _ _ _ => .ok _ _

end Akin

end X86.Context

/-! ## Functions -/

/-- More colors do not make coloring fail. -/
theorem Coloring.exists_find_of_le {g : Graph} {nodes : NameSet} {k m : Nat} {coloring : Coloring}
    (hkm : k ≤ m) (h : find g nodes k = .ok coloring) :
    ∃ coloring', find g nodes m = .ok coloring' := by
  have hk := isLargestCore_residue g nodes k
  have hm := isLargestCore_residue g nodes m
  rw [h] at hk
  have hempty := eq_empty_of_forall (hk.mem_of_le hm hkm)
  rcases find_cases hm with ⟨-, hfound⟩ | ⟨hne, -⟩
  · exact hfound
  · exact absurd hempty hne

namespace Function

variable {f : Function} {fl : Flow} {config config' : Config} {coloring coloring' : Coloring}

/-- What selection reads if the coloring is that one. -/
def context (f : Function) (fl : Flow) (coloring : Coloring) (config : Config) : X86.Context :=
  ⟨f, fl, Liveness.analyze fl.points, coloring, config⟩

section
variable (ha : f.analyze = .ok (fl, Liveness.analyze fl.points, fl.interference))
  (hcheck : config.check = .ok ())
include ha hcheck

theorem compile_of_infeasible {stuck : NameSet}
    (h : Coloring.find fl.interference fl.temporaries config.registers = .error stuck) :
    f.compile config = .error (.infeasible f.name config.registers stuck.toList) := by
  rw [compile, hcheck, ha]
  change (Coloring.find fl.interference fl.temporaries config.registers).mapError _ >>= _ = _
  rw [h]
  rfl

theorem compile_of_find
    (h : Coloring.find fl.interference fl.temporaries config.registers = .ok coloring) :
    f.compile config = (f.context fl coloring config).emit.map fun lines =>
      ⟨f.name, if config.optimize then X86.Peephole.runAll X86.Line.shape lines else lines,
        ⟨f.name, fl.interference, coloring⟩⟩ := by
  rw [compile, hcheck, ha]
  change (Coloring.find fl.interference fl.temporaries config.registers).mapError _ >>= _ = _
  rw [h]
  rfl

end

theorem akin_of_find (hf : f.WellFormed) (hb : Flow.build f = .ok fl)
    (hk : config.registers ≤ X86.Reg.palette.length)
    (hk' : config'.registers ≤ X86.Reg.palette.length)
    (h : Coloring.find fl.interference fl.temporaries config.registers = .ok coloring)
    (h' : Coloring.find fl.interference fl.temporaries config'.registers = .ok coloring') :
    (f.context fl coloring config).Akin (f.context fl coloring' config') where
  function := rfl
  flow := rfl
  left := ⟨hf, Flow.represents_of_build hf hb, rfl, Flow.proper_of_find h, hk⟩
  right := ⟨hf, Flow.represents_of_build hf hb, rfl, Flow.proper_of_find h', hk'⟩

/-- Whether the compilation of a verified function succeeds depends on the configuration only by
whether a coloring is found. More registers do not make it fail. If a coloring is found for both of
two numbers of registers, both runs succeed or both fail with the same error, and with the same
number they report the same. -/
theorem outcome_by_coloring {f : Function} (hv : f.verify = .ok ()) (config config' : Config)
    (hk : 1 ≤ config.registers ∧ config.registers ≤ 8)
    (hk' : 1 ≤ config'.registers ∧ config'.registers ≤ 8) :
    (config.registers ≤ config'.registers → ∀ out, f.compile config = .ok out →
      ∃ out', f.compile config' = .ok out') ∧
    ((∀ name k stuck, f.compile config ≠ .error (.infeasible name k stuck)) →
      (∀ name k stuck, f.compile config' ≠ .error (.infeasible name k stuck)) →
      Alike (f.compile config) (f.compile config')) ∧
    (config.registers = config'.registers →
      (f.compile config).map CompiledFunction.report =
        (f.compile config').map CompiledFunction.report) := by
  have hf := wellFormed_of_verify hv
  obtain ⟨fl, hb, ha⟩ := analyze_of_wellFormed hf
  have hcheck : config.check = .ok () := if_pos hk
  have hcheck' : config'.check = .ok () := if_pos hk'
  have halike {coloring coloring' : Coloring}
      (h : Coloring.find fl.interference fl.temporaries config.registers = .ok coloring)
      (h' : Coloring.find fl.interference fl.temporaries config'.registers = .ok coloring') :
      Alike (f.compile config) (f.compile config') := by
    rw [compile_of_find ha hcheck h, compile_of_find ha hcheck' h']
    exact (akin_of_find hf hb hk.2 hk'.2 h h').emit.map _ _
  refine ⟨fun hle out hout => ?_, fun hno hno' => ?_, fun heq => ?_⟩
  · cases h : Coloring.find fl.interference fl.temporaries config.registers with
    | error stuck => cases (compile_of_infeasible ha hcheck h).symm.trans hout
    | ok coloring =>
      obtain ⟨coloring', h'⟩ := Coloring.exists_find_of_le hle h
      exact (halike h h').exists_ok hout
  · cases h : Coloring.find fl.interference fl.temporaries config.registers with
    | error stuck => exact absurd (compile_of_infeasible ha hcheck h) (hno _ _ _)
    | ok coloring =>
      cases h' : Coloring.find fl.interference fl.temporaries config'.registers with
      | error stuck => exact absurd (compile_of_infeasible ha hcheck' h') (hno' _ _ _)
      | ok coloring' => exact halike h h'
  · cases h : Coloring.find fl.interference fl.temporaries config.registers with
    | error stuck =>
      rw [compile_of_infeasible ha hcheck h, compile_of_infeasible ha hcheck' (heq ▸ h), heq]
    | ok coloring =>
      have h' := heq ▸ h
      rw [compile_of_find ha hcheck h, compile_of_find ha hcheck' h']
      exact (akin_of_find hf hb hk.2 hk'.2 h h').emit.map_map_eq fun _ _ => rfl

/-- A function that needs two registers, one of them for a name that can be folded. -/
def foldable (a : Operand) : Function where
  name := "f"
  ret := .int 64
  params := [⟨"a", .int 64⟩]
  blocks := [⟨none, [
    ⟨.arith .add, [.imm 1, .imm 2], some "x", .int 64⟩,
    ⟨.arith .mul, [.reg "a", .reg "x"], some "y", .int 64⟩,
    ⟨.store, [.reg "x", .reg "y"], none, .int 64⟩,
    ⟨.ret, [a], none, .int 64⟩]⟩]

/-- It compiles with two registers and folding, and so it does with eight and without. If it returns
what is no value, both fail in the same way. -/
theorem outcome_by_coloring_foldable :
    (∃ out out', (foldable (.reg "x")).compile { registers := 2 } = .ok out ∧
      (foldable (.reg "x")).compile { optimize := false, annotate := true } = .ok out') ∧
    ∃ e, (foldable (.callee "g")).compile { registers := 2 } = .error e ∧
      (foldable (.callee "g")).compile { optimize := false, annotate := true } = .error e := by
  constructor
  · have hv : (foldable (.reg "x")).verify = .ok () := ok_of_toBool (by decide +kernel)
    obtain ⟨out, hout⟩ : ∃ out, (foldable (.reg "x")).compile { registers := 2 } = .ok out :=
      exists_ok_of_toBool (by decide +kernel)
    obtain ⟨hmore, -⟩ := outcome_by_coloring hv { registers := 2 }
      { optimize := false, annotate := true } (by decide) (by decide)
    obtain ⟨out', hout'⟩ := hmore (by decide) out hout
    exact ⟨out, out', hout, hout'⟩
  · have hv : (foldable (.callee "g")).verify = .ok () := ok_of_toBool (by decide +kernel)
    have herror : (foldable (.callee "g")).compile { registers := 2 } =
        .error (.malformed (.notValue (.callee "g") "f")) := by
      decide +kernel
    have hfound : (match (foldable (.callee "g")).compile
        { optimize := false, annotate := true } with
        | .error (.infeasible _ _ _) => true
        | _ => false) = false := by
      decide +kernel
    obtain ⟨-, halike, -⟩ := outcome_by_coloring hv { registers := 2 }
      { optimize := false, annotate := true } (by decide) (by decide)
    refine ⟨_, herror,
      (halike (fun name k stuck h => ?_) (fun name k stuck h => ?_)).eq_error herror⟩
    · cases herror.symm.trans h
    · rw [h] at hfound
      cases hfound

end Function

end IrAsm
