import IrAsm.Flow.Liveness
import IrAsm.Proofs.Verify

/-!
# The program points of a function

A function says by itself where control goes: `f.body` lists the instructions at its points,
`f.start? l` is the point at which the block labelled `l` starts, and `f.Next i j` holds if control
can pass from point `i` to point `j`. `Flow.Represents f fl` says that the points, labels and
successors of `fl` are these, except that the last point has no successors. The flow of a verified
function can be built, stays in range and represents it (`exists_build`, `represents_of_build`,
`Represents.inRange`).
-/

namespace IrAsm

/-- The instructions of a block that are program points. -/
def Block.body (b : Block) : List Instr := b.instrs.filter (·.opcode ≠ .alloca)

namespace Function

/-- The instructions at the program points. -/
def body (f : Function) : List Instr := f.blocks.flatMap Block.body

/-- The point at which the first block of that label starts, if the given blocks start at `n`. -/
def startFrom (label : String) : Nat → List Block → Option Nat
  | _, [] => none
  | n, b :: bs => if b.label = some label then some n else startFrom label (n + b.body.length) bs

def start? (f : Function) (label : String) : Option Nat := startFrom label 0 f.blocks

/-- Control can pass from point `i` to point `j`: a branch leads to the start of one of its targets,
a `ret` leads nowhere, and anything else leads to the next point. -/
def Next (f : Function) (i j : Nat) : Prop :=
  ∃ ins, f.body[i]? = some ins ∧
    match ins.opcode with
    | .ret => False
    | .br => ∃ l ∈ ins.targets, f.start? l = some j
    | _ => j = i + 1

/-! ## Blocks -/

theorem startFrom_isSome {label : String} {n : Nat} {bs : List Block} :
    (startFrom label n bs).isSome ↔ label ∈ bs.filterMap Block.label := by
  induction bs generalizing n with
  | nil => simp [startFrom]
  | cons b bs ih =>
    unfold startFrom
    split
    · next h => simp [h]
    · next h =>
      rw [ih, List.filterMap_cons]
      cases hb : b.label with
      | none => rfl
      | some l => simp [hb] at h; simp [Ne.symm h]

theorem start?_isSome {f : Function} {label : String} :
    (f.start? label).isSome ↔ label ∈ f.labels := startFrom_isSome

/-- A block that ends with a terminator has a point, so blocks start within the body. -/
theorem startFrom_lt {label : String} {n m : Nat} {bs : List Block}
    (hbs : ∀ b ∈ bs, 0 < b.body.length) (h : startFrom label n bs = some m) :
    m < n + (bs.flatMap Block.body).length := by
  induction bs generalizing n with
  | nil => cases h
  | cons b bs ih =>
    have hb := hbs b List.mem_cons_self
    rw [List.flatMap_cons, List.length_append]
    unfold startFrom at h
    split at h
    · cases h; omega
    · have := ih (fun b' hb' => hbs b' (List.mem_cons_of_mem _ hb')) h
      omega

theorem WellFormed.body_pos {f : Function} (h : f.WellFormed) {b : Block} (hb : b ∈ f.blocks) :
    0 < b.body.length := by
  obtain ⟨last, hl, ht⟩ := h.ended b hb
  refine List.length_pos_of_mem (a := last) (List.mem_filter.mpr ⟨List.mem_of_getLast? hl, ?_⟩)
  have hne : last.opcode ≠ .alloca := by
    intro e; rw [e] at ht; simp [Opcode.isTerminator] at ht
  simpa using hne

theorem WellFormed.start_lt {f : Function} (h : f.WellFormed) {l : String} {n : Nat}
    (hs : f.start? l = some n) : n < f.body.length := by
  have := startFrom_lt (fun b hb => h.body_pos hb) hs
  simpa [body] using this

/-- The last point is a terminator. -/
theorem WellFormed.isTerminator_last {f : Function} (h : f.WellFormed) {last : Instr}
    (hl : f.body.getLast? = some last) : last.opcode.isTerminator := by
  have hne := h.blocks
  rcases List.eq_nil_or_concat f.blocks with hb | ⟨bs, b, hb⟩
  · exact absurd hb hne
  · obtain ⟨last', hl', ht⟩ := h.ended b (by rw [hb]; simp)
    have hp : b.body.getLast? = some last' := by
      have hne : last'.opcode ≠ .alloca := by
        intro e; rw [e] at ht; simp [Opcode.isTerminator] at ht
      obtain ⟨init, hi⟩ := List.getLast?_eq_some_iff.mp hl'
      simp [Block.body, hi, hne]
    rw [body, hb, List.concat_eq_append, List.flatMap_append, List.getLast?_append] at hl
    simp only [List.flatMap_cons, List.flatMap_nil, List.append_nil, hp] at hl
    cases hl
    exact ht

theorem mem_body {f : Function} {i : Instr} :
    i ∈ f.body ↔ i ∈ f.instrs ∧ i.opcode ≠ .alloca := by
  simp only [body, instrs, List.mem_flatMap, Block.body, List.mem_filter, decide_eq_true_eq]
  constructor
  · rintro ⟨b, hb, hi, ha⟩; exact ⟨⟨b, hb, hi⟩, ha⟩
  · rintro ⟨⟨b, hb, hi⟩, ha⟩; exact ⟨b, hb, hi, ha⟩

end Function

namespace Flow

/-! ## Labels -/

theorem lookup_setStart (label l : String) (n : Nat) (ls : List (String × Nat)) :
    (setStart label n ls).lookup l = if l = label then some n else ls.lookup l := by
  induction ls with
  | nil =>
    by_cases h : l = label
    · simp [setStart, h]
    · simp [setStart, h, List.lookup_cons, beq_eq_false_iff_ne.mpr h]
  | cons x ls ih =>
    obtain ⟨l', m⟩ := x
    unfold setStart
    split
    · next h =>
      subst h
      by_cases h : l = l'
      · simp [h]
      · simp [h, List.lookup_cons, beq_eq_false_iff_ne.mpr h]
    · next h =>
      by_cases h' : l = l'
      · subst h'
        simp [h]
      · rw [List.lookup_cons, List.lookup_cons, ih, beq_eq_false_iff_ne.mpr h']

theorem keys_setStart (label : String) (n : Nat) (ls : List (String × Nat)) :
    (setStart label n ls).map Prod.fst =
      if label ∈ ls.map Prod.fst then ls.map Prod.fst else ls.map Prod.fst ++ [label] := by
  induction ls with
  | nil => simp [setStart]
  | cons x ls ih =>
    obtain ⟨l', m⟩ := x
    unfold setStart
    split
    · next h => simp [h]
    · next h =>
      rw [List.map_cons, ih]
      simp only [List.map_cons, List.mem_cons, Ne.symm h, false_or]
      split
      · rfl
      · rfl

theorem nodup_setStart {label : String} {n : Nat} {ls : List (String × Nat)}
    (h : (ls.map Prod.fst).Nodup) : ((setStart label n ls).map Prod.fst).Nodup := by
  rw [keys_setStart]
  split
  · exact h
  · next hn =>
    exact List.nodup_append.mpr ⟨h, by simp, by simpa using fun x m hx e => hn (by grind)⟩

/-! ## Points -/

theorem labels_foldl_addInstr (is : List Instr) (fl : Flow) :
    (is.foldl addInstr fl).labels = fl.labels := by
  induction is generalizing fl with
  | nil => rfl
  | cons i is ih =>
    rw [List.foldl_cons, ih]
    unfold addInstr
    split
    · rfl
    · rfl

theorem instrs_foldl_addInstr (is : List Instr) (fl : Flow) :
    (is.foldl addInstr fl).points.map Point.instr =
      fl.points.map Point.instr ++ is.filter (·.opcode ≠ .alloca) := by
  induction is generalizing fl with
  | nil => simp
  | cons i is ih =>
    rw [List.foldl_cons, ih]
    unfold addInstr
    split
    · next h => simp [h]
    · next h => simp [h]

theorem instrs_addBlock (fl : Flow) (b : Block) :
    (fl.addBlock b).points.map Point.instr = fl.points.map Point.instr ++ b.body :=
  instrs_foldl_addInstr ..

theorem length_addBlock (fl : Flow) (b : Block) :
    (fl.addBlock b).points.length = fl.points.length + b.body.length := by
  have := congrArg List.length (instrs_addBlock fl b)
  simpa using this

theorem instrs_unlinked (f : Function) : (unlinked f).points.map Point.instr = f.body := by
  have h : ∀ (bs : List Block) (fl : Flow), (bs.foldl addBlock fl).points.map Point.instr =
      fl.points.map Point.instr ++ bs.flatMap Block.body := by
    intro bs
    induction bs with
    | nil => simp
    | cons b bs ih => intro fl; rw [List.foldl_cons, ih, instrs_addBlock]; simp
  exact h f.blocks empty

theorem lookup_addBlock (fl : Flow) (b : Block) (l : String) :
    (fl.addBlock b).labels.lookup l =
      if b.label = some l then some fl.points.length else fl.labels.lookup l := by
  unfold addBlock
  rw [labels_foldl_addInstr]
  cases hb : b.label with
  | none => simp
  | some l' => simp [lookup_setStart, eq_comm]

theorem lookup_foldl_addBlock {bs : List Block} (h : (bs.filterMap Block.label).Nodup) (fl : Flow)
    (l : String) : (bs.foldl addBlock fl).labels.lookup l =
      (Function.startFrom l fl.points.length bs).or (fl.labels.lookup l) := by
  induction bs generalizing fl with
  | nil => rfl
  | cons b bs ih =>
    rw [List.foldl_cons, Function.startFrom]
    by_cases hb : b.label = some l
    · -- the label of this block is that of no later one
      rw [List.filterMap_cons, hb, List.nodup_cons] at h
      have hnone : Function.startFrom l (fl.addBlock b).points.length bs = none := by
        rw [← Option.not_isSome_iff_eq_none, Function.startFrom_isSome]
        exact h.1
      rw [ih h.2, hnone, lookup_addBlock, if_pos hb, if_pos hb]
      rfl
    · have h' : (bs.filterMap Block.label).Nodup := by
        rw [List.filterMap_cons] at h
        split at h
        · exact h
        · exact (List.nodup_cons.mp h).2
      rw [ih h', lookup_addBlock, if_neg hb, if_neg hb, length_addBlock]

theorem nodup_keys_unlinked (f : Function) : ((unlinked f).labels.map Prod.fst).Nodup := by
  have h : ∀ (bs : List Block) (fl : Flow), (fl.labels.map Prod.fst).Nodup →
      ((bs.foldl addBlock fl).labels.map Prod.fst).Nodup := by
    intro bs
    induction bs with
    | nil => exact fun _ h => h
    | cons b bs ih =>
      intro fl h
      rw [List.foldl_cons]
      refine ih _ ?_
      unfold addBlock
      rw [labels_foldl_addInstr]
      cases b.label with
      | none => exact h
      | some l => exact nodup_setStart h
  exact h f.blocks empty List.nodup_nil

/-- The sets of the points, once the instructions `is` were added. -/
structure Collected (is : List Instr) (fl : Flow) : Prop where
  defs : ∀ p ∈ fl.points, p.defs = p.instr.writes
  uses : ∀ p ∈ fl.points, ∃ seen ⊆ fl.allocas, p.uses = p.instr.reads seen
  allocas : ∀ x, x ∈ fl.allocas ↔ ∃ i ∈ is, i.opcode = .alloca ∧ i.result = some x

theorem Collected.addInstr {is : List Instr} {fl : Flow} (h : Collected is fl) (i : Instr) :
    Collected (is ++ [i]) (fl.addInstr i) := by
  unfold Flow.addInstr
  split
  · next hi =>
    refine ⟨h.defs, fun p hp => ?_, fun x => ?_⟩
    · obtain ⟨seen, hs, hu⟩ := h.uses p hp
      exact ⟨seen, fun x hx => List.mem_append_left _ (hs hx), hu⟩
    · simp only [List.mem_append, List.mem_filter, Option.mem_toList, h.allocas, List.mem_singleton,
        decide_eq_true_eq, or_and_right, exists_or, exists_eq_left]
      grind
  · next hi =>
    refine ⟨fun p hp => ?_, fun p hp => ?_, fun x => ?_⟩
    · rcases List.mem_append.mp hp with hp | hp
      · exact h.defs p hp
      · rw [List.mem_singleton.mp hp]
    · rcases List.mem_append.mp hp with hp | hp
      · exact h.uses p hp
      · exact ⟨fl.allocas, List.Subset.refl _, by rw [List.mem_singleton.mp hp]⟩
    · simp only [h.allocas, List.mem_append, List.mem_singleton, or_and_right, exists_or,
        exists_eq_left]
      grind

theorem Collected.foldl {is : List Instr} {fl : Flow} (h : Collected is fl) (js : List Instr) :
    Collected (is ++ js) (js.foldl Flow.addInstr fl) := by
  induction js generalizing is fl with
  | nil => simpa using h
  | cons j js ih => simpa using ih (h.addInstr j)

theorem Collected.addBlock {is : List Instr} {fl : Flow} (h : Collected is fl) (b : Block) :
    Collected (is ++ b.instrs) (fl.addBlock b) := by
  unfold Flow.addBlock
  apply Collected.foldl
  exact ⟨h.defs, h.uses, h.allocas⟩

theorem collected_unlinked (f : Function) : Collected f.instrs (unlinked f) := by
  have h : ∀ (bs : List Block) (is : List Instr) (fl : Flow), Collected is fl →
      Collected (is ++ bs.flatMap Block.instrs) (bs.foldl Flow.addBlock fl) := by
    intro bs
    induction bs with
    | nil => intro is fl h; simpa using h
    | cons b bs ih =>
      intro is fl h
      rw [List.foldl_cons, List.flatMap_cons, ← List.append_assoc]
      exact ih _ _ (h.addBlock b)
  exact h f.blocks [] empty ⟨by simp [empty], by simp [empty], by simp [empty]⟩

/-! ## The built flow -/

/-- The flow has the points, labels and successors of the function. The last point, whatever its
instruction, has no successors. -/
structure Represents (f : Function) (fl : Flow) : Prop extends Collected f.instrs fl where
  instrs : fl.points.map Point.instr = f.body
  start : ∀ l, fl.start? l = f.start? l
  keys : (fl.labels.map Prod.fst).Nodup
  succs : ∀ {n p}, fl.points[n]? = some p → ∀ {s}, s ∈ p.succs ↔ n + 1 ≠ f.body.length ∧
    if p.instr.opcode = .br then ∃ l ∈ p.instr.targets, f.start? l = some s else s = n + 1

theorem Represents.length {f : Function} {fl : Flow} (h : Represents f fl) :
    fl.points.length = f.body.length := by
  rw [← h.instrs, List.length_map]

theorem Represents.exists_point {f : Function} {fl : Flow} (h : Represents f fl) {n : Nat}
    {i : Instr} (hi : f.body[n]? = some i) : ∃ p, fl.points[n]? = some p ∧ p.instr = i := by
  rw [← h.instrs, List.getElem?_map] at hi
  simpa using hi

theorem lookup_eq_some_iff {ls : List (String × Nat)} (h : (ls.map Prod.fst).Nodup) {l : String}
    {n : Nat} : ls.lookup l = some n ↔ (l, n) ∈ ls := by
  induction ls with
  | nil => simp
  | cons x ls ih =>
    obtain ⟨k, m⟩ := x
    rw [List.map_cons, List.nodup_cons] at h
    by_cases hk : l = k
    · subst hk
      have hnot : (l, n) ∉ ls := fun hm => h.1 (List.mem_map.mpr ⟨_, hm, rfl⟩)
      simp [hnot, eq_comm]
    · simp [List.lookup_cons, beq_eq_false_iff_ne.mpr hk, hk, ih h.2]

theorem Represents.mem_labelsAt {f : Function} {fl : Flow} (h : Represents f fl) {l : String}
    {n : Nat} : l ∈ fl.labelsAt n ↔ fl.start? l = some n := by
  rw [start?, lookup_eq_some_iff h.keys]
  simp [labelsAt]

theorem mem_reads {i : Instr} {allocas : List String} {x : String} :
    x ∈ i.reads allocas ↔ .reg x ∈ i.operands ∧ x ∉ allocas := by
  simp only [Instr.reads, NameSet.mem_ofList, List.mem_filter, List.mem_filterMap,
    decide_eq_true_eq]
  refine and_congr_left fun _ => ⟨?_, fun h => ⟨_, h, rfl⟩⟩
  rintro ⟨a, ha, hx⟩
  cases a with
  | reg name => cases hx; exact ha
  | _ => cases hx

theorem mem_writes {i : Instr} {x : String} (h : x ∈ i.writes) : i.result = some x := by
  unfold Instr.writes at h
  split at h
  · simp at h
  · simp at h
  · simpa using h

theorem mem_writes_of_result {i : Instr} {x : String} (hs : i.opcode ≠ .store) (hb : i.opcode ≠ .br)
    (hx : i.result = some x) : x ∈ i.writes := by
  unfold Instr.writes
  split
  · next h => exact absurd h hs
  · next h => exact absurd h hb
  · simp [hx]

theorem Represents.instr_mem_body {f : Function} {fl : Flow} (h : Represents f fl) {p : Point}
    (hp : p ∈ fl.points) : p.instr ∈ f.body :=
  h.instrs ▸ List.mem_map_of_mem hp

theorem Represents.mem_results {f : Function} {fl : Flow} (h : Represents f fl) {p : Point}
    (hp : p ∈ fl.points) {x : String} (hx : x ∈ p.defs) : x ∈ Instr.results f.instrs := by
  rw [h.defs p hp] at hx
  exact List.mem_filterMap.mpr
    ⟨_, (Function.mem_body.mp (h.instr_mem_body hp)).1, mem_writes hx⟩

theorem Collected.mem_uses {is : List Instr} {fl : Flow} (h : Collected is fl) {p : Point}
    (hp : p ∈ fl.points) {x : String} (hx : .reg x ∈ p.instr.operands) (ha : x ∉ fl.allocas) :
    x ∈ p.uses := by
  obtain ⟨seen, hs, hu⟩ := h.uses p hp
  rw [hu, mem_reads]
  exact ⟨hx, fun hm => ha (hs hm)⟩

theorem start_ok_iff {fl : Flow} {function label : String} {n : Nat} :
    fl.start function label = .ok n ↔ fl.start? label = some n := by
  unfold start
  cases fl.start? label with
  | none => simp
  | some m => simp

theorem start?_unlinked {f : Function} (h : f.labels.Nodup) (l : String) :
    (unlinked f).start? l = f.start? l := by
  have := lookup_foldl_addBlock h empty l
  simpa [start?, unlinked, Function.start?, empty] using this

/-- What the successors of a point are, once they are known. -/
theorem mem_of_succsOf_ok {f : Function} (h : f.WellFormed) {i : Instr} {n : Nat} {succs : List Nat}
    (hs : (unlinked f).succsOf f.name i n = .ok succs) {s : Nat} :
    s ∈ succs ↔ n + 1 ≠ f.body.length ∧
      if i.opcode = .br then ∃ l ∈ i.targets, f.start? l = some s else s = n + 1 := by
  have hlen : (unlinked f).points.length = f.body.length := by
    rw [← instrs_unlinked, List.length_map]
  unfold succsOf at hs
  rw [hlen] at hs
  split at hs
  · next hn => cases hs; simp [hn]
  · next hn =>
    split at hs
    · next hbr =>
      rw [mapM_ok_iff] at hs
      simp only [ne_eq, hn, not_false_eq_true, true_and, hbr, ↓reduceIte]
      generalize i.targets = ts at hs
      induction hs with
      | nil => simp
      | cons hl _ ih =>
        rw [start_ok_iff, start?_unlinked h.labels] at hl
        simp [ih, hl, eq_comm]
    · next hbr => cases hs; simp [hn, hbr]

section
variable {f : Function} {points : List Point}
  (h : (unlinked f).points.zipIdx.mapM ((unlinked f).link f.name) = .ok points)
include h

/-- Linking changes nothing but the successors. -/
theorem exists_unlinked {n : Nat} {p : Point} (hn : points[n]? = some p) :
    ∃ q succs, (unlinked f).points[n]? = some q ∧
      (unlinked f).succsOf f.name q.instr n = .ok succs ∧ p = { q with succs } := by
  rw [mapM_ok_iff] at h
  have hlt := (List.getElem?_eq_some_iff.mp hn).1
  have hlt' : n < (unlinked f).points.zipIdx.length := h.length_eq ▸ hlt
  have hlk := h.get hlt' hlt
  simp only [List.get_eq_getElem, link, bind_ok_iff, pure_ok_iff, List.getElem_zipIdx] at hlk
  obtain ⟨succs, hs, hp⟩ := hlk
  rw [List.length_zipIdx] at hlt'
  refine ⟨_, succs, List.getElem?_eq_getElem hlt', by simpa using hs, ?_⟩
  rw [hp, (List.getElem?_eq_some_iff.mp hn).2]

theorem map_linked {α : Type} (g : Point → α) (hg : ∀ q succs, g { q with succs } = g q) :
    points.map g = (unlinked f).points.map g := by
  refine List.ext_getElem? fun n => ?_
  rw [List.getElem?_map, List.getElem?_map]
  cases hn : points[n]? with
  | none =>
    have hlen := (mapM_ok_iff.mp h).length_eq
    rw [List.length_zipIdx] at hlen
    rw [List.getElem?_eq_none (hlen ▸ List.getElem?_eq_none_iff.mp hn)]
  | some p =>
    obtain ⟨q, succs, hq, -, rfl⟩ := exists_unlinked h hn
    rw [hq, Option.map_some, Option.map_some, hg]

theorem instrs_linked : points.map Point.instr = f.body :=
  (map_linked h Point.instr fun _ _ => rfl).trans (instrs_unlinked f)

end

theorem collected_of_build {f : Function} {fl : Flow} (hb : build f = .ok fl) :
    Collected f.instrs fl := by
  simp only [build, bind_ok_iff, pure_ok_iff] at hb
  obtain ⟨points, hlink, rfl⟩ := hb
  have hmem : ∀ p ∈ points, ∃ q ∈ (unlinked f).points, p = { q with succs := p.succs } := by
    intro p hp
    obtain ⟨n, hn⟩ := List.mem_iff_getElem?.mp hp
    obtain ⟨q, succs, hq, -, rfl⟩ := exists_unlinked hlink hn
    exact ⟨q, List.mem_of_getElem? hq, rfl⟩
  have hc := collected_unlinked f
  refine ⟨fun p hp => ?_, fun p hp => ?_, hc.allocas⟩
  · obtain ⟨q, hq, e⟩ := hmem p hp
    rw [e]; exact hc.defs q hq
  · obtain ⟨q, hq, e⟩ := hmem p hp
    rw [e]; exact hc.uses q hq

theorem represents_of_build {f : Function} (h : f.WellFormed) {fl : Flow} (hb : build f = .ok fl) :
    Represents f fl := by
  have hc := collected_of_build hb
  simp only [build, bind_ok_iff, pure_ok_iff] at hb
  obtain ⟨points, hlink, rfl⟩ := hb
  refine ⟨hc, instrs_linked hlink, start?_unlinked h.labels, nodup_keys_unlinked f,
    fun {n p} hn {s} => ?_⟩
  obtain ⟨q, succs, -, hs, rfl⟩ := exists_unlinked hlink hn
  exact mem_of_succsOf_ok h hs

/-- The flow of a verified function can be built: all labels that are mentioned have a start. -/
theorem exists_build {f : Function} (h : f.WellFormed) : ∃ fl, build f = .ok fl := by
  have hstart : ∀ p ∈ (unlinked f).points, ∀ l ∈ p.instr.targets,
      ∃ n, (unlinked f).start f.name l = .ok n := by
    intro p hp l hl
    have hi : p.instr ∈ f.body := by
      rw [← instrs_unlinked]; exact List.mem_map_of_mem hp
    have hlab := (h.shaped p.instr (Function.mem_body.mp hi).1).targets l hl
    obtain ⟨n, hn⟩ := Option.isSome_iff_exists.mp (Function.start?_isSome.mpr hlab)
    exact ⟨n, start_ok_iff.mpr ((start?_unlinked h.labels l).trans hn)⟩
  have hlink : ∀ x ∈ (unlinked f).points.zipIdx, ∃ p, (unlinked f).link f.name x = .ok p := by
    intro x hx
    have hx' : x.1 ∈ (unlinked f).points :=
      List.mem_of_getElem? (List.mem_zipIdx_iff_getElem?.mp hx)
    obtain ⟨succs, hs⟩ : ∃ succs, (unlinked f).succsOf f.name x.1.instr x.2 = .ok succs := by
      unfold succsOf
      split
      · exact ⟨_, rfl⟩
      · split
        · exact exists_mapM_ok (hstart x.1 hx')
        · exact ⟨_, rfl⟩
    exact ⟨{ x.1 with succs }, by simp [link, hs]⟩
  obtain ⟨points, hp⟩ := exists_mapM_ok hlink
  exact ⟨{ unlinked f with points }, by simp [build, hp]⟩

theorem Represents.inRange {f : Function} {fl : Flow} (h : Represents f fl) (hf : f.WellFormed) :
    fl.inRange := by
  simp only [Flow.inRange, List.all_eq_true, decide_eq_true_eq]
  intro p hp s hs
  obtain ⟨n, hn⟩ := List.mem_iff_getElem?.mp hp
  have hlt := (List.getElem?_eq_some_iff.mp hn).1
  rw [h.length] at hlt ⊢
  obtain ⟨hne, hor⟩ := (h.succs hn).mp hs
  split at hor
  · obtain ⟨l, -, hl⟩ := hor
    exact hf.start_lt hl
  · omega

/-- Away from the last point, successors are where control can go; a `ret` also has the next
point. -/
theorem Represents.mem_succs_of_next {f : Function} {fl : Flow} (h : Represents f fl) {i j : Nat}
    (hn : f.Next i j) (hlast : i + 1 ≠ f.body.length) :
    ∃ p, fl.points[i]? = some p ∧ j ∈ p.succs := by
  obtain ⟨ins, hi, hm⟩ := hn
  obtain ⟨p, hp, rfl⟩ := h.exists_point hi
  refine ⟨p, hp, (h.succs hp).mpr ⟨hlast, ?_⟩⟩
  split at hm
  · exact hm.elim
  · next hbr => rw [if_pos hbr]; exact hm
  · next hbr => rw [if_neg hbr]; exact hm

/-! ## The number of locals -/

theorem length_allocas_foldl_addInstr (is : List Instr) (fl : Flow) :
    (is.foldl addInstr fl).allocas.length ≤ fl.allocas.length + is.length := by
  induction is generalizing fl with
  | nil => simp
  | cons i is ih =>
    have hone : (fl.addInstr i).allocas.length ≤ fl.allocas.length + 1 := by
      have hlen := List.length_filter_le (fun x => decide (x ∉ fl.allocas)) i.result.toList
      have hres : i.result.toList.length ≤ 1 := by cases i.result <;> simp
      unfold addInstr
      split
      · rw [List.length_append]
        omega
      · simp
    have := ih (fl.addInstr i)
    rw [List.foldl_cons, List.length_cons]
    omega

theorem instr_mem_of_build {f : Function} {fl : Flow} (h : build f = .ok fl) {p : Point}
    (hp : p ∈ fl.points) : p.instr ∈ f.instrs := by
  simp only [build, bind_ok_iff, pure_ok_iff] at h
  obtain ⟨points, hlink, rfl⟩ := h
  have hbody : p.instr ∈ f.body := instrs_linked hlink ▸ List.mem_map_of_mem hp
  exact (Function.mem_body.mp hbody).1

/-- There are no more locals than instructions. -/
theorem length_allocas_le {f : Function} {fl : Flow} (h : build f = .ok fl) :
    fl.allocas.length ≤ f.instrs.length := by
  have hfold : ∀ (bs : List Block) (fl : Flow), (bs.foldl addBlock fl).allocas.length ≤
      fl.allocas.length + (bs.flatMap Block.instrs).length := by
    intro bs
    induction bs with
    | nil => simp
    | cons b bs ih =>
      intro fl
      have hrest := ih (fl.addBlock b)
      have hblock : (fl.addBlock b).allocas.length ≤ fl.allocas.length + b.instrs.length :=
        length_allocas_foldl_addInstr ..
      rw [List.foldl_cons, List.flatMap_cons, List.length_append]
      omega
  simp only [build, bind_ok_iff, pure_ok_iff] at h
  obtain ⟨points, -, rfl⟩ := h
  have hall := hfold f.blocks empty
  rw [show empty.allocas.length = 0 from rfl, Nat.zero_add] at hall
  exact hall

end Flow

end IrAsm
