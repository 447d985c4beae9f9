import IrAsm.Proofs.X86.Frame
import IrAsm.Proofs.X86.Layout

/-!
# What selection knows at a point

`c.StateAt n s`: selection comes to point `n` in the state `s`. It takes the points in the order of
the text, so the state tells what was folded and bound above the point, whatever control does. A
name that is known was written by a point above, and stays known below. The word of a local is its
slot, or that of the argument that was bound to it last.
-/

namespace IrAsm.X86.Context

variable {c : Context} {s s' t : State} {n m : Nat} {p : Point} {i : IrAsm.Instr}
  {code : List Instr} {x : String}

inductive StateAt (c : Context) : Nat → State → Prop where
  | zero : c.StateAt 0 c.initial
  | succ {n : Nat} {s s' : State} {p : Point} {code : List Instr} : c.StateAt n s →
      c.flow.points[n]? = some p → c.select s n p.instr = .ok (s', code) → c.StateAt (n + 1) s'

namespace StateAt

theorem unique (h : c.StateAt n s) (h' : c.StateAt n s') : s = s' := by
  induction h generalizing s' with
  | zero => cases h'; rfl
  | succ _ hp hsel ih =>
    cases h' with
    | succ h' hp' hsel' =>
      obtain rfl := ih h'
      obtain rfl := Option.some.inj (hp.symm.trans hp')
      exact (Prod.mk.inj (Except.ok.inj (hsel.symm.trans hsel'))).1

/-- The lines of the points from `m` on, split before those of point `n`. -/
theorem split {lines : List Line} (h : c.StateAt m s)
    (hlines : c.emitPoints s (c.flow.points.zipIdx.drop m) = .ok lines) (hmn : m ≤ n)
    (hn : n ≤ c.flow.points.length) :
    ∃ t before after, c.StateAt n t ∧
      c.emitPoints s ((c.flow.points.zipIdx.drop m).take (n - m)) = .ok before ∧
      c.emitPoints t (c.flow.points.zipIdx.drop n) = .ok after ∧ lines = before ++ after := by
  induction hk : n - m generalizing m s lines with
  | zero =>
    obtain rfl : m = n := by omega
    exact ⟨s, [], lines, h, rfl, hlines, rfl⟩
  | succ k ih =>
    have hp : c.flow.points[m]? = some c.flow.points[m] := List.getElem?_eq_getElem (by omega)
    rw [drop_zipIdx hp] at hlines ⊢
    obtain ⟨s', code, tail, hsel, htail, rfl⟩ := emitPoints_cons.mp hlines
    obtain ⟨t, before, after, ht, hbefore, hafter, rfl⟩ :=
      ih (h.succ hp hsel) htail (by omega) (by omega)
    refine ⟨t, c.heading m c.flow.points[m].instr ++ (code.map .code ++ before), after,
      ht, ?_, hafter, by simp⟩
    rw [List.take_succ_cons]
    exact emitPoints_cons.mpr ⟨s', code, before, hsel, hbefore, rfl⟩

end StateAt

/-- Where the code of a point stands among the lines of all points. -/
theorem exists_code {body : List Line} (h : c.emitPoints c.initial c.flow.points.zipIdx = .ok body)
    (hp : c.flow.points[n]? = some p) :
    ∃ s s' code before tail, c.StateAt n s ∧ c.select s n p.instr = .ok (s', code) ∧
      c.emitPoints c.initial (c.flow.points.zipIdx.take n) = .ok before ∧
      c.emitPoints s' (c.flow.points.zipIdx.drop (n + 1)) = .ok tail ∧
      body = before ++ (c.heading n p.instr ++ (code.map .code ++ tail)) := by
  have hlt := (List.getElem?_eq_some_iff.mp hp).1
  obtain ⟨s, before, after, hs, hbefore, hafter, rfl⟩ :=
    StateAt.zero.split h (Nat.zero_le n) (Nat.le_of_lt hlt)
  rw [drop_zipIdx hp] at hafter
  obtain ⟨s', code, tail, hsel, htail, rfl⟩ := emitPoints_cons.mp hafter
  exact ⟨s, s', code, before, tail, hs, hsel, hbefore, htail, rfl⟩

/-! ## What a point changes -/

/-- An operation on two values leaves the state as it is, or learns its result. -/
theorem state_of_selectPair {eval? : Word → Word → Option Word} {seq : Loc → Loc → Reg → List Instr}
    (h : c.selectPair s i eval? seq = .ok (s', code)) :
    s' = s ∨ c.config.optimize = true ∧ ∃ u v w, eval? u v = some w ∧ s' = s.learn i.result w := by
  simp only [selectPair, bind_ok_iff] at h
  obtain ⟨_, -, lhs, -, _, -, rhs, -, dst, -, h⟩ := h
  split at h
  · next w hf =>
    cases h
    unfold fold? at hf
    split at hf
    · next u v => exact .inr ⟨by_contra fun ho => by simp [ho] at hf, u, v, w, by simp_all, rfl⟩
    · cases hf
  · cases h
    exact .inl rfl

/-- What the next point can know or bind more. -/
theorem state_of_select (h : c.select s n i = .ok (s', code)) :
    s' = s ∨
    (c.config.optimize = true ∧ ∃ u v w, i.opcode.eval? u v = some w ∧ s' = s.learn i.result w) ∨
    ∃ a b rest x index, i.opcode = .store ∧ i.operands = a :: b :: rest ∧
      c.bound? s a b = some (x, index) ∧
      s' = { s with frame := s.frame.bindArgument x index } ∧ code = [] := by
  unfold select at h
  split at h
  · next op hop =>
    rw [hop]
    exact (state_of_selectPair h).imp_right .inl
  · next q hq =>
    rw [hq]
    exact (state_of_selectPair h).imp_right .inl
  · exact .inl (selectBranch_ok h).1
  · obtain ⟨_, _, _, -, hs, -⟩ := selectCall_ok h
    exact .inl hs
  · exact .inl (selectRet_cases h).1
  · obtain ⟨_, _, _, _, _, -, -, -, hs, -⟩ := selectAddress_ok h
    exact .inl hs
  · obtain ⟨_, _, _, _, -, -, -, hs, -⟩ := selectBitcast_ok h
    exact .inl hs
  · obtain ⟨_, _, _, _, _, -, -, -, hs, -⟩ := selectLoad_ok h
    exact .inl hs
  · next hop =>
    obtain ⟨a, b, rest, hab, ⟨x, index, hb, hs, hcode⟩ | ⟨-, hs, -⟩⟩ := selectStore_ok h
    · exact .inr (.inr ⟨a, b, rest, x, index, hop, hab, hb, hs, hcode⟩)
    · exact .inl hs
  · cases h; exact .inl rfl
  · cases h

/-! ## Folded names -/

theorem getElem?_learn {result : Option String} {w : Word} :
    (s.learn result w).known[x]? = if result = some x then some w else s.known[x]? := by
  unfold State.learn
  split
  · next y => rw [Std.ExtTreeMap.getElem?_insert]; simp
  · simp

/-- Only the result of a point can become known there, and only by optimizing. -/
theorem known_of_select (h : c.select s n i = .ok (s', code)) {v : Word}
    (hx : s'.known[x]? = some v) :
    s.known[x]? = some v ∨ c.config.optimize = true ∧ x ∈ i.writes := by
  rcases state_of_select h with rfl | ⟨ho, u, u', w, hw, rfl⟩ | ⟨_, _, _, _, _, -, -, -, rfl, -⟩
  · exact .inl hx
  · rw [getElem?_learn] at hx
    split at hx
    · next hr =>
      have hop : i.opcode ≠ .store ∧ i.opcode ≠ .br := by
        constructor <;> (intro he; rw [he] at hw; cases hw)
      exact .inr ⟨ho, Flow.mem_writes_of_result hop.1 hop.2 hr⟩
    · exact .inl hx
  · exact .inl hx

theorem isSome_known_of_select (h : c.select s n i = .ok (s', code))
    (hx : s.known[x]?.isSome) : s'.known[x]?.isSome := by
  rcases state_of_select h with rfl | ⟨-, _, _, w, -, rfl⟩ | ⟨_, _, _, _, _, -, -, -, rfl, -⟩
  · exact hx
  · rw [getElem?_learn]
    split
    · rfl
    · exact hx
  · exact hx

namespace StateAt

/-- What is known at a point is known below it. -/
theorem isSome_known (h : c.StateAt n s) (ht : c.StateAt m t) (hnm : n ≤ m)
    (hx : s.known[x]?.isSome) : t.known[x]?.isSome := by
  induction ht with
  | zero =>
    obtain rfl : n = 0 := by omega
    exact h.unique .zero ▸ hx
  | @succ m u t q code hu hq hsel ih =>
    rcases Nat.lt_or_ge m n with hlt | hge
    · obtain rfl : n = m + 1 := by omega
      exact h.unique (hu.succ hq hsel) ▸ hx
    · exact isSome_known_of_select hsel (ih hge)

/-- What is known at a point was written above it, and is known everywhere below the write. -/
theorem exists_of_known (h : c.StateAt n s) (hx : s.known[x]?.isSome) :
    c.config.optimize = true ∧ ∃ k q, k < n ∧ c.flow.points[k]? = some q ∧ x ∈ q.instr.writes ∧
      ∀ m t, k < m → c.StateAt m t → t.known[x]?.isSome := by
  induction h with
  | zero => simp [initial] at hx
  | @succ n s s' p code hs hp hsel ih =>
    obtain ⟨v, hv⟩ := Option.isSome_iff_exists.mp hx
    rcases known_of_select hsel hv with hv' | ⟨ho, hw⟩
    · obtain ⟨ho, k, q, hk, hrest⟩ := ih (by rw [hv']; rfl)
      exact ⟨ho, k, q, by omega, hrest⟩
    · exact ⟨ho, n, p, by omega, hp, hw, fun m t hm ht => (hs.succ hp hsel).isSome_known ht hm hx⟩

end StateAt

/-! ## Words of locals -/

/-- The argument that an instruction binds `x` to. -/
def binding? (c : Context) (x : String) (i : IrAsm.Instr) : Option Nat :=
  match i.opcode, i.operands with
  | .store, .reg arg :: .reg y :: _ => if y = x then c.stackParam? arg else none
  | _, _ => none

/-- The displacement of the word that the local `x` stands for at a point. -/
def wordAt (c : Context) (x : String) : Nat → Option Int
  | 0 => c.initial.frame.displacement? x
  | n + 1 => (c.wordAt x n).map fun d =>
    match (c.flow.points[n]?).bind fun p => c.binding? x p.instr with
    | some index => -Frame.argumentDepth index
    | none => d

theorem isSome_wordAt : (c.wordAt x n).isSome ↔ x ∈ c.flow.allocas := by
  induction n with
  | zero =>
    rw [← Frame.contains_plan, wordAt, Frame.displacement?, Option.isSome_map]
    rfl
  | succ n ih => rw [wordAt, Option.isSome_map, ih]

theorem binding?_eq_some_iff {index : Nat} : c.binding? x i = some index ↔ i.opcode = .store ∧
    ∃ arg rest, i.operands = .reg arg :: .reg x :: rest ∧ c.stackParam? arg = some index := by
  unfold binding?
  split
  · next arg y rest hop hops =>
    simp only [hop, hops, true_and, List.cons.injEq, Operand.reg.injEq]
    by_cases hy : y = x
    · simp [hy]
    · simp [hy]
  · next hno =>
    simp only [reduceCtorEq, false_iff, not_and, not_exists]
    intro hop arg rest hops
    exact absurd hops (hno arg x rest hop)

theorem displacement?_of_select (h : c.select s n i = .ok (s', code)) :
    s'.frame.displacement? x = (s.frame.displacement? x).map fun d =>
      match c.binding? x i with
      | some index => -Frame.argumentDepth index
      | none => d := by
  by_cases hop : i.opcode = .store
  · rw [select, hop] at h
    obtain ⟨a, b, rest, hab, ⟨y, index, hb, rfl, -⟩ | ⟨hb, rfl, -⟩⟩ := selectStore_ok h
    · obtain ⟨arg, rfl, rfl, -, hindex⟩ := bound?_eq_some_iff.mp hb
      simp only [Frame.displacement?, Frame.depth?_bindArgument, Option.map_map, binding?, hop, hab]
      congr 1
      funext d
      by_cases hy : y = x
      · simp [hy, hindex]
      · simp [hy, Ne.symm hy]
    · cases hbind : c.binding? x i with
      | none => simp
      | some index =>
        -- the store would bind `x` if `x` were a local
        obtain ⟨-, arg, rest', hops, hindex⟩ := binding?_eq_some_iff.mp hbind
        have hslot : ¬ s'.frame.contains x := by
          intro hx
          obtain ⟨rfl, rfl, -⟩ : a = .reg arg ∧ b = .reg x ∧ _ := by simpa using hab.symm.trans hops
          rw [bound?_eq_some_iff.mpr ⟨arg, rfl, rfl, hx, hindex⟩] at hb
          cases hb
        have hnone : s'.frame.depth? x = none := by simpa [Frame.contains] using hslot
        simp [Frame.displacement?, hnone]
  · have hbind : c.binding? x i = none := by
      by_contra hbind
      obtain ⟨index, hbind⟩ := Option.ne_none_iff_exists'.mp hbind
      exact hop (binding?_eq_some_iff.mp hbind).1
    have hframe : s'.frame = s.frame := by
      rcases state_of_select h with rfl | ⟨-, _, _, w, -, rfl⟩ | ⟨_, _, _, _, _, hstore, -⟩
      · rfl
      · cases i.result <;> rfl
      · exact absurd hstore hop
    simp [hbind, hframe]

/-- The state at a point has the words of the locals. -/
theorem StateAt.displacement?_eq (h : c.StateAt n s) (x : String) :
    s.frame.displacement? x = c.wordAt x n := by
  induction h with
  | zero => rfl
  | succ _ hp hsel ih =>
    rw [displacement?_of_select hsel, ih, wordAt, hp]
    rfl

theorem StateAt.contains_iff (h : c.StateAt n s) : s.frame.contains x ↔ x ∈ c.flow.allocas := by
  rw [← isSome_wordAt, ← h.displacement?_eq x, Frame.contains, Frame.displacement?,
    Option.isSome_map]

/-- A local goes on to stand for a word where it is not bound. -/
theorem wordAt_succ (h : ∀ q, c.flow.points[n]? = some q → c.binding? x q.instr = none) :
    c.wordAt x (n + 1) = c.wordAt x n := by
  rw [wordAt]
  cases hp : c.flow.points[n]? with
  | none => simp
  | some p => simp [h p hp]

/-- A local stands for its slot unless a point above binds it. -/
theorem wordAt_eq_initial
    (h : ∀ m < n, ∀ q, c.flow.points[m]? = some q → c.binding? x q.instr = none) :
    c.wordAt x n = c.initial.frame.displacement? x := by
  induction n with
  | zero => rfl
  | succ n ih => rw [wordAt_succ (h n (by omega)), ih fun m hm => h m (by omega)]

/-- The word of a local is its slot or that of an argument to which it is bound. -/
theorem wordAt_cases {d : Int} (h : c.wordAt x n = some d) :
    (∃ j : Nat, c.flow.allocas[j]? = some x ∧ d = -(8 * ((j : Int) + 1))) ∨
      ∃ q ∈ c.flow.points, ∃ index, c.binding? x q.instr = some index ∧
        d = -Frame.argumentDepth index := by
  induction n generalizing d with
  | zero =>
    obtain ⟨e, he, rfl⟩ := Option.map_eq_some_iff.mp h
    obtain ⟨j, hj, rfl⟩ := Frame.depth?_plan he
    exact .inl ⟨j, hj, rfl⟩
  | succ n ih =>
    obtain ⟨e, he, hd⟩ := Option.map_eq_some_iff.mp h
    split at hd
    · next index hbind =>
      obtain ⟨q, hq, hindex⟩ := Option.bind_eq_some_iff.mp hbind
      exact .inr ⟨q, List.mem_of_getElem? hq, index, hindex, hd.symm⟩
    · exact ih (hd ▸ he)

theorem bounds_of_binding? {index : Nat} (h : c.binding? x i = some index) :
    Reg.args.length ≤ index ∧ index < c.function.params.length := by
  obtain ⟨-, _, _, -, hindex⟩ := binding?_eq_some_iff.mp h
  exact stackParam?_bounds hindex

theorem frameWord_of_wordAt {d : Int} (h : c.wordAt x n = some d) : c.FrameWord d := by
  rcases wordAt_cases h with ⟨j, hj, rfl⟩ | ⟨q, -, index, hindex, rfl⟩
  · exact .slot (List.getElem?_eq_some_iff.mp hj).1
  · obtain ⟨hle, hlt⟩ := bounds_of_binding? hindex
    exact .argument hle hlt

/-! ## Places -/

/-- Where the code of a point looks for a name: in the word of a local, or where its value is. -/
def place (c : Context) (s : State) (x : String) : Except Error Loc :=
  match s.frame.displacement? x with
  | some d => .ok (.frame d)
  | none => c.register s x

/-- The places of names. -/
theorem register_cases {loc : Loc} (h : c.register s x = .ok loc) :
    (∃ v, s.known[x]? = some v ∧ loc = .imm v) ∨
      s.known[x]? = none ∧ ((∃ index, c.stackParam? x = some index ∧
          loc = .frame (-Frame.argumentDepth index)) ∨
        c.stackParam? x = none ∧ s.frame.contains x = false ∧ ∃ r, c.colored x = .ok r ∧
        loc = .reg r) := by
  unfold register at h
  split at h
  · next hk => cases h; exact .inl ⟨_, hk, rfl⟩
  · next index hk hindex => cases h; exact .inr ⟨hk, .inl ⟨index, hindex, rfl⟩⟩
  · next hk hindex =>
    split at h
    · cases h
    · next hslot =>
      obtain ⟨r, hr, rfl⟩ := map_ok_iff.mp h
      exact .inr ⟨hk, .inr ⟨hindex, by simpa using hslot, r, hr, rfl⟩⟩

theorem frameWord_of_register {d : Int} (h : c.register s x = .ok (.frame d)) : c.FrameWord d := by
  rcases register_cases h with ⟨v, -, hv⟩ | ⟨-, ⟨index, hindex, hd⟩ | ⟨-, -, r, -, hr⟩⟩
  · cases hv
  · cases hd
    obtain ⟨hle, hlt⟩ := stackParam?_bounds hindex
    exact .argument hle hlt
  · cases hr

theorem colored_of_register {r : Reg} (h : c.register s x = .ok (.reg r)) :
    c.colored x = .ok r := by
  rcases register_cases h with ⟨v, -, hv⟩ | ⟨-, ⟨index, -, hd⟩ | ⟨-, -, q, hq, hr⟩⟩
  · cases hv
  · cases hd
  · cases hr
    exact hq

theorem mem_palette_of_register {r : Reg} (h : c.register s x = .ok (.reg r)) : r ∈ Reg.palette :=
  mem_palette_of_colored (colored_of_register h)

end IrAsm.X86.Context
