import IrAsm.Proofs.X86.Faults
import IrAsm.Proofs.X86.Outcome

/-!
# What an internal error means

Selection relies on two things that it does not establish itself: that a name has a register, and
that a conditional branch is followed by the block that is taken when the condition holds. It fails
with an internal error where one is missing. The first never is, in whatever function: each operand
that is no local, and each result, is among the names of its point, and all of these were colored
(`Context.Supplied`). So an internal error is one of a branch that does not fall through
(`Flow.Leaps`), the first point at which selection fails.
-/

namespace IrAsm

def Error.isInternal : Error → Bool
  | .internal _ _ => true
  | _ => false

theorem InternalFault.head?_message_noFallThrough (n : Nat) (label : String) :
    (noFallThrough n label).message.toList.head? = some 'c' := by
  show ("conditional branch at point " ++ toString n ++ " must fall through to `" ++ label ++
    "`").toList.head? = some 'c'
  simp

/-- Point `n` is a conditional branch, and the block that is taken when the condition holds starts
elsewhere than at the next point. -/
def Flow.Leaps (fl : Flow) (n : Nat) (label : String) : Prop :=
  ∃ p cond whenFalse start, fl.points[n]? = some p ∧ p.instr.opcode = .br ∧
    p.instr.operands = [cond, .label label, .label whenFalse] ∧ fl.start? label = some start ∧
    start ≠ n + 1

namespace X86.Context

variable {c : Context} {s : State} {n : Nat} {p : Point} {i : IrAsm.Instr} {e : Error}
  {name : String} {fault : InternalFault}

theorem never_internal_operand (i : IrAsm.Instr) (n : Nat) :
    Never Error.isInternal (operand i n) := by
  rw [operand]
  split
  · exact .ok _
  · exact .error rfl

/-- A branch fails in this way if it does not fall through, whatever its condition. -/
theorem selectBranch_internal_iff (hv : ∀ a ∈ i.operands, Never Error.isInternal (c.value s a)) :
    c.selectBranch s n i = .error (.internal name fault) ↔ name = c.function.name ∧
      ∃ cond label whenFalse start, i.operands = [cond, .label label, .label whenFalse] ∧
        c.flow.start? label = some start ∧ start ≠ n + 1 ∧ fault = .noFallThrough n label := by
  have hnever (label : String) : Never Error.isInternal (c.flow.start c.function.name label) :=
    Flow.never_start (fun _ => rfl) c.flow label
  have hstart (label : String) : c.flow.start c.function.name label ≠
      .error (.internal name fault) := by
    intro h
    cases hnever label _ h
  unfold selectBranch
  split
  · next target hops =>
    simp [hops, bind_error_iff, hstart, pure, Except.pure]
  · next cond label whenFalse hops =>
    simp only [bind_error_iff, hstart, false_or, Flow.start_ok_iff]
    constructor
    · rintro ⟨start, hfound, h⟩
      split at h
      · next hne =>
        cases h
        exact ⟨rfl, cond, label, whenFalse, start, hops, hfound, hne, rfl⟩
      · rcases bind_error_iff.mp h with h | ⟨loc, -, h⟩
        · cases hv cond (hops ▸ List.mem_cons_self) _ h
        · split at h
          · cases h
          · cases h
    · rintro ⟨rfl, cond', label', whenFalse', start, hops', hfound, hne, rfl⟩
      cases hops.symm.trans hops'
      refine ⟨start, hfound, ?_⟩
      rw [if_pos hne]
      rfl
  · next hother =>
    constructor
    · rintro ⟨⟩
    · rintro ⟨-, cond, label, whenFalse, start, hops, -⟩
      exact absurd hops (hother _ _ _)

/-- The names of all points have registers. -/
structure Supplied (c : Context) : Prop where
  collected : Flow.Collected c.function.instrs c.flow
  exists_colored {x : String} : x ∈ c.flow.temporaries → ∃ r, c.colored x = .ok r

namespace Supplied

section
variable (hc : c.Supplied) (hp : c.flow.points[n]? = some p)
include hc hp

theorem never_dest (hstore : p.instr.opcode ≠ .store) (hbr : p.instr.opcode ≠ .br) :
    Never Error.isInternal (c.dest p.instr) := by
  have hmem := List.mem_of_getElem? hp
  rw [dest]
  split
  · next x hx =>
    have hdef : x ∈ p.defs := hc.collected.defs p hmem ▸ Flow.mem_writes_of_result hstore hbr hx
    obtain ⟨r, hr⟩ := hc.exists_colored (Flow.mem_temporaries.mpr ⟨p, hmem, .inr hdef⟩)
    rw [hr]
    exact .ok r
  · exact .error rfl

variable (hs : c.StateAt n s)
include hs

theorem never_register {x : String} (hx : .reg x ∈ p.instr.operands) :
    Never Error.isInternal (c.register s x) := by
  have hmem := List.mem_of_getElem? hp
  rw [register]
  split
  · exact .ok _
  · exact .ok _
  · split
    · exact .error rfl
    · next hslot =>
      rw [hs.contains_iff] at hslot
      have huse := hc.collected.mem_uses hmem hx hslot
      obtain ⟨r, hr⟩ := hc.exists_colored (Flow.mem_temporaries.mpr ⟨p, hmem, .inl huse⟩)
      rw [hr]
      exact .ok _

theorem never_value {a : Operand} (ha : a ∈ p.instr.operands) :
    Never Error.isInternal (c.value s a) := by
  cases a with
  | reg x => exact never_register hc hp hs ha
  | imm v => exact .ok _
  | global x => exact .ok _
  | label l | callee x => exact .error rfl

theorem never_memory {a : Operand} (ha : a ∈ p.instr.operands) :
    Never Error.isInternal (c.memory s a) := by
  cases a with
  | reg x =>
    rw [memory]
    split
    · exact .ok _
    · exact (never_register hc hp hs ha).bind fun _ _ => .ok _
  | global x => exact .ok _
  | imm v | label l | callee x => exact .error rfl

theorem never_select (hbr : p.instr.opcode ≠ .br) :
    Never Error.isInternal (c.select s n p.instr) := by
  have hd (hstore : p.instr.opcode ≠ .store) := never_dest hc hp hstore hbr
  have hv := fun a ha => never_value hc hp hs (a := a) ha
  have hm := fun a ha => never_memory hc hp hs (a := a) ha
  have ho := never_internal_operand p.instr
  unfold select
  split
  · next h => exact never_selectPair (hd (by simp [h])) hv (ho 0) (ho 1)
  · next h => exact never_selectPair (hd (by simp [h])) hv (ho 0) (ho 1)
  · next h => exact absurd h hbr
  · next h =>
    exact never_selectCall (hd (by simp [h])) (fun a ha => hv a (List.mem_of_mem_dropLast ha))
      (.inr rfl)
  · exact never_selectRet hv
  · next h => exact never_selectAddress (hd (by simp [h])) hv rfl
  · next h => exact never_selectBitcast (hd (by simp [h])) hv (ho 0)
  · next h => exact never_selectLoad (hd (by simp [h])) hm (ho 0)
  · exact never_selectStore hv hm (ho 0) (ho 1)
  · exact .ok _
  · exact .error rfl

/-- A point fails in this way exactly if it is a branch that does not fall through. -/
theorem select_internal_iff : c.select s n p.instr = .error (.internal name fault) ↔
    name = c.function.name ∧ ∃ label, c.flow.Leaps n label ∧ fault = .noFallThrough n label := by
  by_cases hbr : p.instr.opcode = .br
  · rw [select, hbr, selectBranch_internal_iff fun a ha => never_value hc hp hs ha]
    refine and_congr_right fun _ => ⟨?_, ?_⟩
    · rintro ⟨cond, label, whenFalse, start, hops, hstart, hne, rfl⟩
      exact ⟨label, ⟨p, cond, whenFalse, start, hp, hbr, hops, hstart, hne⟩, rfl⟩
    · rintro ⟨label, ⟨q, cond, whenFalse, start, hq, -, hops, hstart, hne⟩, rfl⟩
      obtain rfl := Option.some.inj (hp.symm.trans hq)
      exact ⟨cond, label, whenFalse, start, hops, hstart, hne, rfl⟩
  · constructor
    · intro h
      cases never_select hc hp hs hbr _ h
    · rintro ⟨-, label, ⟨q, _, _, _, hq, hbr', -⟩, -⟩
      obtain rfl := Option.some.inj (hp.symm.trans hq)
      exact absurd hbr' hbr

end

end Supplied

/-! ## The first point that fails -/

/-- A failure at a point to which selection comes is one of the whole. -/
theorem StateAt.emitPoints_error (hs : c.StateAt n s)
    (h : c.emitPoints s (c.flow.points.zipIdx.drop n) = .error e) :
    c.emitPoints c.initial c.flow.points.zipIdx = .error e := by
  induction hs with
  | zero => rwa [List.drop_zero] at h
  | succ _ hp hsel ih =>
    apply ih
    rw [drop_zipIdx hp]
    exact bind_error_iff.mpr (.inr ⟨_, hsel, bind_error_iff.mpr (.inl h)⟩)

theorem StateAt.exists_of_error {m : Nat} {s : State} (hs : c.StateAt m s)
    (h : c.emitPoints s (c.flow.points.zipIdx.drop m) = .error e) :
    ∃ n t p, c.StateAt n t ∧ c.flow.points[n]? = some p ∧ c.select t n p.instr = .error e := by
  by_cases hm : m < c.flow.points.length
  · have hp : c.flow.points[m]? = some c.flow.points[m] := List.getElem?_eq_getElem hm
    rw [drop_zipIdx hp, emitPoints] at h
    rcases bind_error_iff.mp h with h | ⟨⟨s', code⟩, hsel, h⟩
    · exact ⟨m, s, _, hs, hp, h⟩
    · rcases bind_error_iff.mp h with h | ⟨lines, -, h⟩
      · exact (hs.succ hp hsel).exists_of_error h
      · cases h
  · rw [List.drop_eq_nil_of_le (by simpa using hm)] at h
    cases h
termination_by c.flow.points.length - m

/-- Selection fails with the error of the first point at which it does. -/
theorem emit_error_iff : c.emit = .error e ↔ ∃ n s p, c.StateAt n s ∧ c.flow.points[n]? = some p ∧
    c.select s n p.instr = .error e := by
  constructor
  · intro h
    rcases bind_error_iff.mp h with h | ⟨body, -, h⟩
    · exact StateAt.zero.exists_of_error h
    · cases h
  · rintro ⟨n, s, p, hs, hp, hsel⟩
    refine bind_error_iff.mpr (.inl (hs.emitPoints_error ?_))
    rw [drop_zipIdx hp]
    exact bind_error_iff.mpr (.inl hsel)

theorem Supplied.emit_internal_iff (hc : c.Supplied) : c.emit = .error (.internal name fault) ↔
    name = c.function.name ∧ ∃ n s label, c.StateAt n s ∧ c.flow.Leaps n label ∧
      fault = .noFallThrough n label := by
  rw [emit_error_iff]
  constructor
  · rintro ⟨n, s, p, hs, hp, hsel⟩
    obtain ⟨hname, label, hleaps, hfault⟩ := (hc.select_internal_iff hp hs).mp hsel
    exact ⟨hname, n, s, label, hs, hleaps, hfault⟩
  · rintro ⟨hname, n, s, label, hs, hleaps, hfault⟩
    obtain ⟨p, _, _, _, hp, -⟩ := id hleaps
    exact ⟨n, s, p, hs, hp, (hc.select_internal_iff hp hs).mpr ⟨hname, label, hleaps, hfault⟩⟩

end X86.Context

/-! ## Functions -/

namespace Function

variable {f : Function} {fl : Flow} {coloring : Coloring} {config : Config}

theorem supplied_of_find (hb : Flow.build f = .ok fl)
    (hk : config.registers ≤ X86.Reg.palette.length)
    (h : Coloring.find fl.interference fl.temporaries config.registers = .ok coloring) :
    (f.context fl coloring config).Supplied where
  collected := Flow.collected_of_build hb
  exists_colored :=
    X86.Context.exists_colored_of_proper (c := f.context fl coloring config)
      (Flow.proper_of_find h) hk

/-- An internal error is one of selection, which a coloring comes before. -/
theorem compile_internal_iff {name : String} {fault : InternalFault} :
    f.compile config = .error (.internal name fault) ↔ config.check = .ok () ∧
      ∃ fl coloring, Flow.build f = .ok fl ∧ fl.inRange ∧
        Coloring.find fl.interference fl.temporaries config.registers = .ok coloring ∧
        (f.context fl coloring config).emit = .error (.internal name fault) := by
  have hconfig : Never Error.isInternal config.check := config.never_check fun _ => rfl
  have hflow : Never Error.isInternal f.analyze := never_analyze (fun _ => rfl) rfl
  constructor
  · intro hcompile
    rcases bind_error_iff.mp hcompile with h | ⟨_, hcheck, h⟩
    · cases hconfig _ h
    rcases bind_error_iff.mp h with h | ⟨found, ha, -⟩
    · cases hflow _ h
    obtain ⟨fl, hb, hr, rfl⟩ := analyze_ok_iff.mp ha
    cases hfind : Coloring.find fl.interference fl.temporaries config.registers with
    | error stuck => cases (compile_of_infeasible ha hcheck hfind).symm.trans hcompile
    | ok coloring =>
      rw [compile_of_find ha hcheck hfind, map_error_iff] at hcompile
      exact ⟨hcheck, fl, coloring, hb, hr, hfind, hcompile⟩
  · rintro ⟨hcheck, fl, coloring, hb, hr, hfind, hemit⟩
    rw [compile_of_find (analyze_of_build hb hr) hcheck hfind, map_error_iff]
    exact hemit

/-- An internal error has one cause, in every function, verified or not: selection has come to a
conditional branch, and the block taken when the condition holds does not start at the next point.
Its text is that of no missing register, and of no operation that is not a binary one. -/
theorem internal_error_iff (f : Function) (config : Config) (name : String)
    (fault : InternalFault) :
    (f.compile config = .error (.internal name fault) ↔
      name = f.name ∧ 1 ≤ config.registers ∧ config.registers ≤ 8 ∧
        ∃ fl coloring n s label, Flow.build f = .ok fl ∧ fl.inRange ∧
          Coloring.find fl.interference fl.temporaries config.registers = .ok coloring ∧
          (f.context fl coloring config).StateAt n s ∧ fl.Leaps n label ∧
          fault = .noFallThrough n label) ∧
    (f.compile config = .error (.internal name fault) → ∀ x,
      fault.message ≠ "no register assigned to %" ++ x ∧
      fault.message ≠ "`" ++ x ++ "` is not a binary operation") := by
  constructor
  · rw [compile_internal_iff, Config.check_ok_iff]
    constructor
    · rintro ⟨⟨hpos, hk⟩, fl, coloring, hb, hr, hfind, hemit⟩
      obtain ⟨hname, n, s, label, hs, hleaps, hfault⟩ :=
        (supplied_of_find hb hk hfind).emit_internal_iff.mp hemit
      exact ⟨hname, hpos, hk, fl, coloring, n, s, label, hb, hr, hfind, hs, hleaps, hfault⟩
    · rintro ⟨hname, hpos, hk, fl, coloring, n, s, label, hb, hr, hfind, hs, hleaps, hfault⟩
      exact ⟨⟨hpos, hk⟩, fl, coloring, hb, hr, hfind,
        (supplied_of_find hb hk hfind).emit_internal_iff.mpr
          ⟨hname, n, s, label, hs, hleaps, hfault⟩⟩
  · intro h x
    obtain ⟨hcheck, fl, coloring, hb, -, hfind, hemit⟩ := compile_internal_iff.mp h
    have hk := (Config.check_ok_iff.mp hcheck).2
    obtain ⟨-, n, s, label, -, -, rfl⟩ := (supplied_of_find hb hk hfind).emit_internal_iff.mp hemit
    -- the text starts with another letter than either of the others
    have hhead := InternalFault.head?_message_noFallThrough n label
    constructor
    · intro htext
      rw [htext] at hhead
      simp at hhead
    · intro htext
      rw [htext] at hhead
      simp at hhead

/-- The block taken when the condition holds stands last. -/
def leaping : Function where
  name := "f"
  ret := .int 64
  params := [⟨"a", .int 64⟩]
  blocks := [
    ⟨some "entry", [⟨.br, [.reg "a", .label "yes", .label "no"], none, .void⟩]⟩,
    ⟨some "no", [⟨.ret, [.imm 0], none, .int 64⟩]⟩,
    ⟨some "yes", [⟨.ret, [.reg "a"], none, .int 64⟩]⟩]

theorem internal_error_iff_leaping :
    leaping.compile {} = .error (.internal "f" (.noFallThrough 0 "yes")) ∧
    ∃ fl, Flow.build leaping = .ok fl ∧ fl.Leaps 0 "yes" := by
  have hcompile : leaping.compile {} = .error (.internal "f" (.noFallThrough 0 "yes")) := by
    decide +kernel
  obtain ⟨-, -, -, fl, _, n, _, label, hb, -, -, -, hleaps, hfault⟩ :=
    (internal_error_iff leaping {} "f" (.noFallThrough 0 "yes")).1.mp hcompile
  cases hfault
  exact ⟨hcompile, fl, hb, hleaps⟩

end Function

end IrAsm
