import IrAsm.Proofs.X86.Propagation
import IrAsm.Proofs.X86.Prologue

/-!
# The definitions of names

A function binds the names of its parameters and of its results. Verification refuses a result whose
name was bound before, as a parameter or by a result, so a result has one definition and selection
knows no other name. It does not look at parameters alone: two of them can have one name. The names
of a verified function are bound once if and only if its parameters have different names. Then each
parameter is the one that its name is looked up as, and the prologue copies the argument at that
position. If two parameters share a name, the look-up takes the first and the prologue copies the
second over it.
-/

namespace IrAsm

namespace Function

variable {f : Function}

/-- The names that a function binds: its parameters, then the results of its instructions. -/
def bindings (f : Function) : List String := f.params.map Param.name ++ Instr.results f.instrs

/-- The instruction at position `n` defines the name. -/
def DefinesAt (f : Function) (n : Nat) (x : String) : Prop :=
  ∃ i, f.instrs[n]? = some i ∧ i.result = some x

theorem WellFormed.nodup_bindings_iff (hf : f.WellFormed) :
    f.bindings.Nodup ↔ (f.params.map Param.name).Nodup := by
  rw [bindings, List.nodup_append']
  exact ⟨fun h => h.1, fun h => ⟨h, hf.results, fun x hx hr => hf.params x hr hx⟩⟩

/-- Names are different if and only if each is found where it stands. -/
theorem nodup_params_iff : (f.params.map Param.name).Nodup ↔
    ∀ n p, f.params[n]? = some p → f.paramIndex? p.name = some n := by
  constructor
  · intro h n p hp
    have hpair := List.pairwise_iff_getElem.mp (List.pairwise_map.mp h)
    obtain ⟨hn, rfl⟩ := List.getElem?_eq_some_iff.mp hp
    refine List.findIdx?_eq_some_iff_getElem.mpr ⟨hn, by simp, fun m hm => ?_⟩
    simpa using hpair m n (hm.trans hn) hn hm
  · intro h
    refine List.pairwise_map.mpr (List.pairwise_iff_getElem.mpr fun m n hm hn hlt heq => ?_)
    have hfirst := h m _ (List.getElem?_eq_getElem hm)
    rw [heq, h n _ (List.getElem?_eq_getElem hn)] at hfirst
    exact hlt.ne (Option.some.inj hfirst).symm

theorem paramIndex?_eq_none_iff {x : String} :
    f.paramIndex? x = none ↔ x ∉ f.params.map Param.name := by
  simp [paramIndex?, List.findIdx?_eq_none_iff]

/-- A result is no parameter and has one definition. -/
theorem WellFormed.existsUnique_definesAt (hf : f.WellFormed) {x : String}
    (hx : x ∈ Instr.results f.instrs) : f.paramIndex? x = none ∧ ∃! n, f.DefinesAt n x := by
  refine ⟨paramIndex?_eq_none_iff.mpr (hf.params x hx), ?_⟩
  obtain ⟨i, hi, hres⟩ := List.mem_filterMap.mp hx
  obtain ⟨n, hn⟩ := List.mem_iff_getElem?.mp hi
  refine ⟨n, ⟨i, hn, hres⟩, ?_⟩
  rintro m ⟨j, hj, hres'⟩
  exact Instr.index_unique hf.results hj hn hres' hres

end Function

namespace X86.Context

variable {c : Context}

/-- Known names are results. -/
theorem StateAt.mem_results (hf : c.function.WellFormed)
    (hc : Flow.Represents c.function c.flow) {n : Nat} {s : State} (hs : c.StateAt n s) {x : String}
    {v : Word} (hx : s.known[x]? = some v) : x ∈ Instr.results c.function.instrs := by
  obtain ⟨m, i, -, hi, hres, -⟩ := hs.exists_definition hf hc hx
  exact List.mem_filterMap.mpr ⟨i, (Function.mem_body.mp (List.mem_of_getElem? hi)).1, hres⟩

/-- The prologue copies, for each name, the argument where the name is found. -/
theorem mem_paramCopies_iff
    (h : ∀ n p, c.function.params[n]? = some p → c.function.paramIndex? p.name = some n)
    {arg r : Reg} : .mov (.reg arg) (.reg r) ∈ c.paramCopies ↔
      ∃ x n, c.function.paramIndex? x = some n ∧ Reg.args[n]? = some arg ∧ c.colored x = .ok r := by
  have hmem : .mov (.reg arg) (.reg r) ∈ c.paramCopies ↔
      (arg, r) ∈ c.copies (c.function.params.zip Reg.args) := by
    rw [paramCopies_eq]
    simp
  rw [hmem, mem_copies]
  constructor
  · rintro ⟨p, hp, hr⟩
    obtain ⟨n, hn⟩ := List.mem_iff_getElem?.mp hp
    obtain ⟨hparam, harg⟩ := List.getElem?_zip_eq_some.mp hn
    exact ⟨p.name, n, h n p hparam, harg, hr⟩
  · rintro ⟨x, n, hn, harg, hr⟩
    obtain ⟨hlt, hname, -⟩ := List.findIdx?_eq_some_iff_getElem.mp hn
    have hzip : (c.function.params.zip Reg.args)[n]? = some (c.function.params[n], arg) :=
      List.getElem?_zip_eq_some.mpr ⟨List.getElem?_eq_getElem hlt, harg⟩
    refine ⟨_, List.mem_of_getElem? hzip, ?_⟩
    rwa [eq_of_beq hname]

end X86.Context

namespace Function

/-- In a verified function the names are bound once if and only if its parameters have different
names, that is, if each of them is found at its own position. Results are bound once in any case,
and folding knows results only. If all names are bound once, the prologue copies the arguments at
the positions where the names are found. -/
theorem names_bound_once_iff {f : Function} (hv : f.verify = .ok ()) :
    (f.bindings.Nodup ↔ (f.params.map Param.name).Nodup) ∧
    (f.bindings.Nodup ↔ ∀ n p, f.params[n]? = some p → f.paramIndex? p.name = some n) ∧
    (∀ x ∈ Instr.results f.instrs, f.paramIndex? x = none ∧ ∃! n, f.DefinesAt n x) ∧
    ∀ c : X86.Context, c.function = f →
      (Flow.build f = .ok c.flow → ∀ n s x v, c.StateAt n s → s.known[x]? = some v →
        f.paramIndex? x = none ∧ ∃! m, f.DefinesAt m x) ∧
      (f.bindings.Nodup → ∀ arg r, .mov (.reg arg) (.reg r) ∈ c.paramCopies ↔
        ∃ x n, f.paramIndex? x = some n ∧ X86.Reg.args[n]? = some arg ∧ c.colored x = .ok r) := by
  have hf := wellFormed_of_verify hv
  have hfound := hf.nodup_bindings_iff.trans nodup_params_iff
  refine ⟨hf.nodup_bindings_iff, hfound, fun x hx => hf.existsUnique_definesAt hx, ?_⟩
  rintro c rfl
  refine ⟨fun hb n s x v hs hx => ?_, fun h arg r => X86.Context.mem_paramCopies_iff (hfound.mp h)⟩
  exact hf.existsUnique_definesAt (hs.mem_results hf (Flow.represents_of_build hf hb) hx)

/-- A sum of two parameters. -/
def sumOfTwo : Function where
  name := "f"
  ret := .int 64
  params := [⟨"a", .int 64⟩, ⟨"b", .int 64⟩]
  blocks := [⟨none, [⟨.arith .add, [.reg "a", .reg "b"], some "c", .int 64⟩,
    ⟨.ret, [.reg "c"], none, .int 64⟩]⟩]

theorem names_bound_once_iff_sumOfTwo :
    sumOfTwo.verify = .ok () ∧ sumOfTwo.bindings = ["a", "b", "c"] ∧ sumOfTwo.bindings.Nodup := by
  have hv : sumOfTwo.verify = .ok () := ok_of_toBool (by decide +kernel)
  exact ⟨hv, rfl, (names_bound_once_iff hv).1.mpr (by decide)⟩

/-- Two parameters of one name. -/
def sharedParam : Function where
  name := "f"
  ret := .int 64
  params := [⟨"a", .int 64⟩, ⟨"a", .int 64⟩]
  blocks := [⟨none, [⟨.ret, [.reg "a"], none, .int 64⟩]⟩]

/-- Verification accepts it. The name is found at the first parameter, and the prologue copies the
second argument over the first. -/
theorem sharedParam_accepted : sharedParam.verify = .ok () ∧ ¬ sharedParam.bindings.Nodup ∧
    sharedParam.paramIndex? "a" = some 0 ∧
    ∀ c : X86.Context, c.function = sharedParam → c.coloring.get? "a" = some 0 →
      c.paramCopies = [.mov (.reg .rdi) (.reg .r8), .mov (.reg .rsi) (.reg .r8)] := by
  refine ⟨ok_of_toBool (by decide +kernel), by decide, by decide, fun c hc hcolor => ?_⟩
  have hreg : X86.Reg.ofColor? 0 = some .r8 := rfl
  simp [X86.Context.paramCopies, hc, sharedParam, X86.Reg.args, hcolor, hreg]

end Function

end IrAsm
