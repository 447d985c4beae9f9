import IrAsm.Proofs.Eval
import IrAsm.Proofs.Interference

/-!
# Stack locals and temporaries

Points are collected in the order of the text, and an operand counts as read unless an `alloca`
above has made it a stack local. So a local that is addressed only below its `alloca` is no
temporary, and one that is addressed above it (`ReadEarly`) is a temporary too: it is live
somewhere, and gets a color that nothing uses. Control may still come to the `alloca` first.

No point writes a local, since verified functions define no name twice.
-/

namespace IrAsm

namespace Instr

/-- The instruction makes `x` a stack local. -/
def Allocates (i : Instr) (x : String) : Prop := i.opcode = .alloca ∧ i.result = some x

instance (i : Instr) (x : String) : Decidable (i.Allocates x) := inferInstanceAs (Decidable (_ ∧ _))

/-- A program point reads `x`, and nothing above it makes `x` a stack local. -/
def ReadEarly (is : List Instr) (x : String) : Prop :=
  ∃ above i below, is = above ++ i :: below ∧ i.opcode ≠ .alloca ∧ .reg x ∈ i.operands ∧
    ∀ j ∈ above, ¬ j.Allocates x

variable {is : List Instr} {i : Instr} {x : String}

theorem not_readEarly_nil : ¬ ReadEarly [] x := by
  rintro ⟨above, i, below, h, -⟩
  simp at h

theorem readEarly_cons : ReadEarly (i :: is) x ↔
    i.opcode ≠ .alloca ∧ .reg x ∈ i.operands ∨ ¬ i.Allocates x ∧ ReadEarly is x := by
  constructor
  · rintro ⟨above, k, below, hsplit, hop, hx, habove⟩
    rcases List.cons_eq_append_iff.mp hsplit with ⟨rfl, hk⟩ | ⟨rest, rfl, rfl⟩
    · obtain ⟨rfl, -⟩ := List.cons.inj hk
      exact .inl ⟨hop, hx⟩
    · rw [List.forall_mem_cons] at habove
      exact .inr ⟨habove.1, rest, k, below, rfl, hop, hx, habove.2⟩
  · rintro (hi | ⟨hi, above, k, below, rfl, hop, hx, habove⟩)
    · exact ⟨[], i, is, rfl, hi.1, hi.2, by simp⟩
    · exact ⟨i :: above, k, below, rfl, hop, hx, List.forall_mem_cons.mpr ⟨hi, habove⟩⟩

instance decidableReadEarly (x : String) : (is : List Instr) → Decidable (ReadEarly is x)
  | [] => .isFalse not_readEarly_nil
  | _ :: is =>
    have := decidableReadEarly x is
    decidable_of_iff _ readEarly_cons.symm

/-- One more instruction reads early what it reads, unless that was allocated before. -/
theorem readEarly_concat : ReadEarly (is ++ [i]) x ↔
    ReadEarly is x ∨ i.opcode ≠ .alloca ∧ .reg x ∈ i.operands ∧ ∀ j ∈ is, ¬ j.Allocates x := by
  constructor
  · rintro ⟨above, k, below, hsplit, hk⟩
    rcases List.eq_nil_or_concat below with rfl | ⟨below, last, rfl⟩
    · obtain ⟨rfl, hlast⟩ := List.append_inj' hsplit rfl
      obtain rfl : i = k := by simpa using hlast
      exact .inr hk
    · rw [List.concat_eq_append, ← List.cons_append, ← List.append_assoc] at hsplit
      exact .inl ⟨above, k, below, (List.append_inj' hsplit rfl).1, hk⟩
  · rintro (⟨above, k, below, rfl, hk⟩ | hi)
    · exact ⟨above, k, below ++ [i], by simp, hk⟩
    · exact ⟨is, i, [], rfl, hi⟩

end Instr

namespace Flow

/-! ## Collecting without labels -/

variable {f : Function} {fl : Flow} {is : List Instr} {x : String}

theorem foldl_addInstr_labels (is : List Instr) (fl : Flow) (labels : List (String × Nat)) :
    is.foldl addInstr { fl with labels } = { is.foldl addInstr fl with labels } := by
  induction is generalizing fl with
  | nil => rfl
  | cons i is ih =>
    have hone : addInstr { fl with labels } i = { addInstr fl i with labels } := by
      unfold addInstr
      split
      · rfl
      · rfl
    rw [List.foldl_cons, List.foldl_cons, hone, ih]

/-- Blocks matter for the labels only. -/
theorem foldl_addBlock_eq (bs : List Block) (fl : Flow) :
    (bs.foldl addBlock fl).points = ((bs.flatMap Block.instrs).foldl addInstr fl).points ∧
      (bs.foldl addBlock fl).allocas = ((bs.flatMap Block.instrs).foldl addInstr fl).allocas := by
  induction bs generalizing fl with
  | nil => exact ⟨rfl, rfl⟩
  | cons b bs ih =>
    have hblock : fl.addBlock b =
        { b.instrs.foldl addInstr fl with labels := (fl.addBlock b).labels } := by
      rw [addBlock, labels_foldl_addInstr]
      exact foldl_addInstr_labels ..
    obtain ⟨hpoints, hallocas⟩ := ih (fl.addBlock b)
    rw [List.foldl_cons, List.flatMap_cons, List.foldl_append, hpoints, hallocas, hblock,
      foldl_addInstr_labels]
    exact ⟨rfl, rfl⟩

theorem collected_foldl (is : List Instr) : Collected is (is.foldl addInstr empty) := by
  have hempty : Collected [] empty := ⟨by simp [empty], by simp [empty], by simp [empty]⟩
  exact hempty.foldl is

theorem nodup_foldl (is : List Instr) : (is.foldl addInstr empty).allocas.Nodup := by
  induction is using List.reverseRecOn with
  | nil => exact List.nodup_nil
  | append_singleton is i ih =>
    rw [List.foldl_append, List.foldl_cons, List.foldl_nil, addInstr]
    split
    · refine List.nodup_append.mpr ⟨ih, ?_, ?_⟩
      · exact List.Nodup.filter _ (by cases i.result <;> simp)
      · intro y hy z hz hyz
        rw [List.mem_filter, decide_eq_true_eq] at hz
        exact hz.2 (hyz ▸ hy)
    · exact ih

/-- The points read what is read early, locals or not. -/
theorem exists_uses_foldl :
    (∃ p ∈ (is.foldl addInstr empty).points, x ∈ p.uses) ↔ Instr.ReadEarly is x := by
  induction is using List.reverseRecOn with
  | nil => exact iff_of_false (by simp [empty]) Instr.not_readEarly_nil
  | append_singleton is i ih =>
    have hseen : x ∉ (is.foldl addInstr empty).allocas ↔ ∀ j ∈ is, ¬ j.Allocates x := by
      rw [(collected_foldl is).allocas x]
      simp [Instr.Allocates]
    rw [Instr.readEarly_concat, ← ih, List.foldl_append, List.foldl_cons, List.foldl_nil, addInstr]
    split
    · next hi => simp [hi]
    · next hi => simp [hi, or_and_right, exists_or, mem_reads, hseen]

section
variable (h : build f = .ok fl)
include h

theorem allocas_of_build : fl.allocas = (f.instrs.foldl addInstr empty).allocas := by
  simp only [build, bind_ok_iff, pure_ok_iff] at h
  obtain ⟨points, -, rfl⟩ := h
  exact (foldl_addBlock_eq f.blocks empty).2

theorem nodup_allocas : fl.allocas.Nodup := allocas_of_build h ▸ nodup_foldl f.instrs

theorem exists_uses_iff : (∃ p ∈ fl.points, x ∈ p.uses) ↔ Instr.ReadEarly f.instrs x := by
  simp only [build, bind_ok_iff, pure_ok_iff] at h
  obtain ⟨points, hlink, rfl⟩ := h
  have huses : points.map Point.uses = (f.instrs.foldl addInstr empty).points.map Point.uses := by
    rw [map_linked hlink Point.uses fun _ _ => rfl, unlinked, (foldl_addBlock_eq f.blocks empty).1]
    rfl
  have hmem (ps : List Point) : (∃ p ∈ ps, x ∈ p.uses) ↔ ∃ s ∈ ps.map Point.uses, x ∈ s := by simp
  rw [← exists_uses_foldl, hmem, hmem, huses]

end

/-! ## Locals -/

/-- No point writes a stack local. -/
theorem not_mem_defs_of_allocas (hf : f.WellFormed) (h : build f = .ok fl)
    (hx : x ∈ fl.allocas) {p : Point} (hp : p ∈ fl.points) : x ∉ p.defs := by
  intro hd
  have hr := represents_of_build hf h
  obtain ⟨i, hi, hop, hres⟩ := (hr.allocas x).mp hx
  have hbody := Function.mem_body.mp (hr.instr_mem_body hp)
  rw [hr.defs p hp] at hd
  have heq : p.instr = i := Instr.eq_of_result hf.results hbody.1 hi (mem_writes hd) hres
  exact hbody.2 (heq ▸ hop)

theorem mem_temporaries_iff_readEarly (hf : f.WellFormed) (h : build f = .ok fl)
    (hx : x ∈ fl.allocas) : x ∈ fl.temporaries ↔ Instr.ReadEarly f.instrs x := by
  rw [← exists_uses_iff h, mem_temporaries]
  refine exists_congr fun p => and_congr_right fun hp => or_iff_left ?_
  exact not_mem_defs_of_allocas hf h hx hp

/-- The name `x` plays no part in the analysis: it is no temporary, it is live nowhere, and it is no
node. -/
structure Apart (fl : Flow) (live : Liveness) (graph : Graph) (x : String) : Prop where
  temporaries : x ∉ fl.temporaries
  liveIn : ∀ n, x ∉ live.inAt n
  liveOut : ∀ n, x ∉ live.outAt n
  nodes : x ∉ graph.nodes

theorem apart_iff :
    fl.Apart (Liveness.analyze fl.points) fl.interference x ↔ x ∉ fl.temporaries := by
  refine ⟨Apart.temporaries, fun hx => ⟨hx, fun n hlive => ?_, fun n hlive => ?_, ?_⟩⟩
  · rw [Liveness.mem_inAt_analyze] at hlive
    exact hx hlive.mem_temporaries
  · exact hx (LiveOrWritten.mem_temporaries (.inl hlive))
  · rwa [mem_nodes_interference]

end Flow

namespace Function

/-- Stack locals and temporaries are disjoint exactly as far as no local is addressed above its
`alloca`. A local that is addressed there is a temporary, a node of the graph, and live before some
point. -/
theorem locals_apart_iff {f : Function} (hv : f.verify = .ok ()) :
    ∃ fl live graph, f.analyze = .ok (fl, live, graph) ∧ ∀ x ∈ fl.allocas,
      (fl.Apart live graph x ↔ ¬ Instr.ReadEarly f.instrs x) ∧
      (Instr.ReadEarly f.instrs x →
        x ∈ fl.temporaries ∧ x ∈ graph.nodes ∧ ∃ n, x ∈ live.inAt n) := by
  have hf := wellFormed_of_verify hv
  obtain ⟨fl, hb, ha⟩ := analyze_of_wellFormed hf
  refine ⟨fl, _, _, ha, fun x hx => ?_⟩
  have htemp := Flow.mem_temporaries_iff_readEarly hf hb hx
  refine ⟨Flow.apart_iff.trans (not_congr htemp), fun hearly => ?_⟩
  obtain ⟨p, hp, hread⟩ := (Flow.exists_uses_iff hb).mpr hearly
  obtain ⟨n, hn⟩ := List.mem_iff_getElem?.mp hp
  have hlive : Liveness.Live fl.points n x := ⟨0, .here hn hread⟩
  exact ⟨htemp.mpr hearly, Flow.mem_nodes_interference.mpr (htemp.mpr hearly), n,
    Liveness.mem_inAt_analyze.mpr hlive⟩

/-- Control comes to the `alloca` of `x` first, but the block that loads from it stands above. -/
def crossed : Function where
  name := "f"
  ret := .int 64
  params := []
  blocks := [
    ⟨some "entry", [⟨.alloca, [], some "y", .int 64⟩, ⟨.store, [.imm 1, .reg "y"], none, .int 64⟩,
      ⟨.br, [.label "init"], none, .void⟩]⟩,
    ⟨some "use", [⟨.load, [.reg "x"], some "v", .int 64⟩, ⟨.ret, [.reg "v"], none, .int 64⟩]⟩,
    ⟨some "init", [⟨.alloca, [], some "x", .int 64⟩, ⟨.store, [.imm 5, .reg "x"], none, .int 64⟩,
      ⟨.br, [.label "use"], none, .void⟩]⟩,
    ⟨some "tail", [⟨.ret, [.imm 0], none, .int 64⟩]⟩]

theorem locals_apart_iff_crossed :
    crossed.verify = .ok () ∧ ∃ fl live graph, crossed.analyze = .ok (fl, live, graph) ∧
      fl.allocas = ["y", "x"] ∧ fl.Apart live graph "y" ∧ "x" ∈ fl.temporaries := by
  have hv : crossed.verify = .ok () := ok_of_toBool (by decide +kernel)
  have hnames : crossed.analyze.toOption.map (·.1.allocas) = some ["y", "x"] := by decide +kernel
  obtain ⟨fl, live, graph, ha, hall⟩ := locals_apart_iff hv
  simp only [ha, Except.toOption, Option.map_some, Option.some.injEq] at hnames
  rw [hnames] at hall
  have hy : ¬ Instr.ReadEarly crossed.instrs "y" := by decide
  have hx : Instr.ReadEarly crossed.instrs "x" := by decide
  exact ⟨hv, fl, live, graph, ha, hnames, (hall "y" (by simp)).1.mpr hy,
    ((hall "x" (by simp)).2 hx).1⟩

/-- The local `x` is a temporary, a node of the graph, and live where it is loaded from. -/
theorem local_is_temporary_crossed :
    crossed.verify = .ok () ∧ ∃ fl live graph, crossed.analyze = .ok (fl, live, graph) ∧
      "x" ∈ fl.allocas ∧ "x" ∈ fl.temporaries ∧ "x" ∈ live.inAt 2 ∧ "x" ∈ live.outAt 5 ∧
      "x" ∈ graph.nodes := by
  have hv : crossed.verify = .ok () := ok_of_toBool (by decide +kernel)
  have heval : (Flow.build crossed).toOption.any fun fl => "x" ∈ fl.allocas &&
      (fl.points[2]?.any fun p => "x" ∈ p.uses) && fl.points[5]?.any fun p => 2 ∈ p.succs := by
    decide +kernel
  obtain ⟨fl, hb, ha⟩ := analyze_of_wellFormed (wellFormed_of_verify hv)
  simp only [hb, Except.toOption, Option.any_some, Bool.and_eq_true, decide_eq_true_eq,
    Option.any_eq_true] at heval
  obtain ⟨⟨hslot, p, hp, hread⟩, q, hq, hnext⟩ := heval
  have htemp : "x" ∈ fl.temporaries :=
    Flow.mem_temporaries.mpr ⟨p, List.mem_of_getElem? hp, .inl hread⟩
  have hlive : Liveness.Live fl.points 2 "x" := ⟨0, .here hp hread⟩
  exact ⟨hv, fl, _, _, ha, hslot, htemp, Liveness.mem_inAt_analyze.mpr hlive,
    Liveness.mem_outAt_analyze.mpr ⟨q, hq, 2, hnext, hlive⟩, Flow.mem_nodes_interference.mpr htemp⟩

end Function

end IrAsm
