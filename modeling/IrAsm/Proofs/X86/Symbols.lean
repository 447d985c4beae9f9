import IrAsm.Proofs.X86.Labels

/-!
# The symbols of a module

The assembly of a module defines its globals and the labels of all its functions. The text of a
block label is made of the names of the function and of the block with an underscore between, and
both names can have underscores themselves. So functions can share labels although they have
different names: a block `b_c` of `a` is `.La_b_c`, and so is a block `c` of `a_b`. `f.Clashes g`
lists the ways in which a label of `f` can be one of `g`. The symbols of a compiled module are
distinct exactly if no two functions clash and no global has the name of a label.
-/

namespace IrAsm

/-! ## Texts -/

theorem eq_or_exists_of_underscore {f g l l' : String} {as : List Char}
    (hg : g.toList = f.toList ++ as) (hl : '_' :: l.toList = as ++ '_' :: l'.toList) :
    f = g ∧ l = l' ∨ ∃ x, g = f ++ "_" ++ x ∧ l = x ++ "_" ++ l' := by
  cases as with
  | nil =>
    rw [List.append_nil, String.toList_inj] at hg
    rw [List.nil_append, List.cons_inj_right, String.toList_inj] at hl
    exact .inl ⟨hg.symm, hl⟩
  | cons a as =>
    rw [List.cons_append, List.cons.injEq] at hl
    obtain ⟨rfl, hl⟩ := hl
    refine .inr ⟨.ofList as, String.toList_inj.mp ?_, String.toList_inj.mp ?_⟩
    · simp [hg]
    · simp [hl]

/-- Where the same text is split at two underscores, what is between them belongs to one side or the
other. -/
theorem underscore_eq_underscore_iff {f g l l' : String} : f ++ "_" ++ l = g ++ "_" ++ l' ↔
    f = g ∧ l = l' ∨ (∃ x, g = f ++ "_" ++ x ∧ l = x ++ "_" ++ l') ∨
      ∃ x, f = g ++ "_" ++ x ∧ l' = x ++ "_" ++ l := by
  constructor
  · intro h
    have h : f.toList ++ '_' :: l.toList = g.toList ++ '_' :: l'.toList := by
      simpa using congrArg String.toList h
    rcases List.append_eq_append_iff.mp h with ⟨as, hg, hl⟩ | ⟨bs, hf, hl⟩
    · exact (eq_or_exists_of_underscore hg hl).imp_right .inl
    · exact (eq_or_exists_of_underscore hf hl).imp (fun he => ⟨he.1.symm, he.2.symm⟩) .inr
  · rintro (⟨rfl, rfl⟩ | ⟨x, rfl, rfl⟩ | ⟨x, rfl, rfl⟩)
    · rfl
    · simp only [String.append_assoc]
    · simp only [String.append_assoc]

namespace X86.Label

variable {f g l l' : String}

theorem text_block_eq_block_iff (h : f ≠ g) : (block f l).text = (block g l').text ↔
    (∃ x, g = f ++ "_" ++ x ∧ l = x ++ "_" ++ l') ∨
      ∃ x, f = g ++ "_" ++ x ∧ l' = x ++ "_" ++ l := by
  have hcancel : (block f l).text = (block g l').text ↔ f ++ "_" ++ l = g ++ "_" ++ l' := by
    simp only [text, String.append_assoc, String.append_right_inj]
  rw [hcancel, underscore_eq_underscore_iff, or_iff_right (fun he => h he.1)]

/-- The name of an exit has one underscore behind the name of its function. -/
theorem text_block_eq_exit_iff : (block f l).text = (exit g).text ↔
    g = ".L" ++ f ∧ l = "end" ∨ ∃ x, g = ".L" ++ f ++ "_" ++ x ∧ l = x ++ "_end" := by
  have hexit : ∀ x : String, x ++ "_end" = x ++ "_" ++ "end" := fun x => by
    rw [String.append_assoc]
    rfl
  have hno : ¬ ∃ x, ".L" ++ f = g ++ "_" ++ x ∧ "end" = x ++ "_" ++ l := by
    rintro ⟨x, -, hx⟩
    have hmem : '_' ∈ "end".toList := by
      rw [hx]
      simp
    exact absurd hmem (by decide)
  rw [text, text, hexit, underscore_eq_underscore_iff, or_iff_left hno, eq_comm (a := g)]
  simp only [hexit]

theorem text_exit_inj (h : (exit f).text = (exit g).text) : f = g :=
  String.append_left_inj _ |>.mp h

end X86.Label

/-! ## Clashes -/

/-- A label of a function is one of another function `g`, by the names that they have. -/
inductive Function.Clashes (f g : Function) : Prop where
  /-- The other function is named like the exit. -/
  | exit : g.name = f.name ++ "_end" → f.Clashes g
  /-- The other function is named like a block. -/
  | block {l : String} : l ∈ f.labels → g.name = ".L" ++ f.name ++ "_" ++ l → f.Clashes g
  /-- The exit of the other function is named like the block `end`. -/
  | blockEnd : "end" ∈ f.labels → g.name = ".L" ++ f.name → f.Clashes g
  /-- The exit of the other function is named like a block that ends in `_end`. -/
  | blockExit {x : String} : x ++ "_end" ∈ f.labels →
      g.name = ".L" ++ f.name ++ "_" ++ x → f.Clashes g
  /-- The name of the other function goes on with part of the name of a block. -/
  | blocks {x l : String} : x ++ "_" ++ l ∈ f.labels → l ∈ g.labels → g.name = f.name ++ "_" ++ x →
      f.Clashes g

namespace Function

variable {f g : Function}

/-- In each case the name of the other function is the longer one. -/
theorem Clashes.length_lt (h : f.Clashes g) : f.name.length < g.name.length := by
  have hexit : "_end".length = 4 := rfl
  have hlocal : ".L".length = 2 := rfl
  have hbar : "_".length = 1 := rfl
  cases h with
  | exit h | block _ h | blockEnd _ h | blockExit _ h | blocks _ _ h =>
    simp only [h, String.length_append]
    omega

theorem mem_texts {t : String} : t ∈ f.symbols.map X86.Label.text ↔ t = f.name ∨
    (∃ l ∈ f.labels, t = (X86.Label.block f.name l).text) ∨ t = (X86.Label.exit f.name).text := by
  simp [symbols, X86.Label.text, eq_comm]

theorem Clashes.exists_common (h : f.Clashes g) :
    ∃ t, t ∈ f.symbols.map X86.Label.text ∧ t ∈ g.symbols.map X86.Label.text := by
  simp only [mem_texts]
  cases h with
  | exit hg => exact ⟨g.name, .inr (.inr hg), .inl rfl⟩
  | block hl hg => exact ⟨g.name, .inr (.inl ⟨_, hl, hg⟩), .inl rfl⟩
  | blockEnd hl hg =>
    exact ⟨_, .inr (.inl ⟨_, hl, rfl⟩),
      .inr (.inr (X86.Label.text_block_eq_exit_iff.mpr (.inl ⟨hg, rfl⟩)))⟩
  | blockExit hl hg =>
    exact ⟨_, .inr (.inl ⟨_, hl, rfl⟩),
      .inr (.inr (X86.Label.text_block_eq_exit_iff.mpr (.inr ⟨_, hg, rfl⟩)))⟩
  | blocks hl hl' hg =>
    refine ⟨_, .inr (.inl ⟨_, hl, rfl⟩), .inr (.inl ⟨_, hl', ?_⟩)⟩
    simp only [X86.Label.text, hg, String.append_assoc]

/-- The text of a block of `f` among those of `g`. -/
theorem clashes_of_block (hne : f.name ≠ g.name) {l : String} (hl : l ∈ f.labels)
    (h : (X86.Label.block f.name l).text ∈ g.symbols.map X86.Label.text) :
    f.Clashes g ∨ g.Clashes f := by
  rcases mem_texts.mp h with h | ⟨l', hl', h⟩ | h
  · exact .inl (.block hl h.symm)
  · rcases (X86.Label.text_block_eq_block_iff hne).mp h with ⟨x, hg, rfl⟩ | ⟨x, hf, rfl⟩
    · exact .inl (.blocks hl hl' hg)
    · exact .inr (.blocks hl' hl hf)
  · rcases X86.Label.text_block_eq_exit_iff.mp h with ⟨hg, rfl⟩ | ⟨x, hg, rfl⟩
    · exact .inl (.blockEnd hl hg)
    · exact .inl (.blockExit hl hg)

theorem disjoint_texts_iff (hne : f.name ≠ g.name) :
    (f.symbols.map X86.Label.text).Disjoint (g.symbols.map X86.Label.text) ↔
      ¬ f.Clashes g ∧ ¬ g.Clashes f := by
  refine ⟨fun h => ⟨fun hc => ?_, fun hc => ?_⟩, fun ⟨hfg, hgf⟩ t hf hg => ?_⟩
  · obtain ⟨t, hf, hg⟩ := hc.exists_common
    exact h hf hg
  · obtain ⟨t, hg, hf⟩ := hc.exists_common
    exact h hf hg
  · have hboth : ¬ (f.Clashes g ∨ g.Clashes f) := fun h => h.elim hfg hgf
    rcases mem_texts.mp hf with rfl | ⟨l, hl, rfl⟩ | rfl
    · rcases mem_texts.mp hg with he | ⟨l, hl, he⟩ | he
      · exact hne he
      · exact hgf (.block hl he)
      · exact hgf (.exit he)
    · exact hboth (clashes_of_block hne hl hg)
    · rcases mem_texts.mp hg with he | ⟨l, hl, he⟩ | he
      · exact hfg (.exit he.symm)
      · exact hboth (clashes_of_block hne.symm hl (he ▸ hf)).symm
      · exact hne (X86.Label.text_exit_inj he)

end Function

namespace Module

/-- The symbols of a module: its globals, and the labels of each function in order. -/
def symbols (m : Module) : List String :=
  m.globals.map Global.name ++ m.functions.flatMap fun f => f.symbols.map X86.Label.text

/-- No label of a function has the name of a global or of a label of another function. -/
structure Separate (m : Module) : Prop where
  functions : ∀ f ∈ m.functions, ∀ g ∈ m.functions, ¬ f.Clashes g
  exits : ∀ f ∈ m.functions, ∀ v ∈ m.globals, v.name ≠ f.name ++ "_end"
  blocks : ∀ f ∈ m.functions, ∀ l ∈ f.labels, ∀ v ∈ m.globals, v.name ≠ ".L" ++ f.name ++ "_" ++ l

/-- A verified module has distinct globals and verified functions. -/
theorem verify_ok {m : Module} (h : m.verify = .ok ()) :
    (m.globals.map Global.name).Nodup ∧ ∀ f ∈ m.functions, f.verify = .ok () := verify_ok_iff.mp h

theorem compile_ok {m : Module} {config : Config} {out : Compilation}
    (h : m.compile config = .ok out) :
    m.verify = .ok () ∧ ∃ fns, m.functions.mapM (·.compile config) = .ok fns ∧
      X86.Assembly.text config.fileName m.globals (fns.map fun c => c.lines.map X86.Line.text) =
        .ok out.assembly := by
  simp only [compile, bind_ok_iff, pure_ok_iff] at h
  obtain ⟨_, -, _, hv, fns, hfns, text, htext, rfl⟩ := h
  exact ⟨hv, fns, hfns, htext⟩

/-- What the lines of the functions define. -/
theorem definitions_of_mapM {functions : List Function} {config : Config}
    {fns : List CompiledFunction} (hf : ∀ f ∈ functions, f.WellFormed)
    (h : functions.mapM (·.compile config) = .ok fns) :
    (fns.flatMap fun c => (X86.definitions c.lines).map X86.Label.text) =
      functions.flatMap fun f => f.symbols.map X86.Label.text := by
  rw [mapM_ok_iff] at h
  induction h with
  | nil => rfl
  | cons hc _ ih =>
    rw [List.forall_mem_cons] at hf
    rw [List.flatMap_cons, List.flatMap_cons, ih hf.2, Function.definitions_of_compile hf.1 hc]

theorem nodup_symbols_iff {m : Module} (hglobals : (m.globals.map Global.name).Nodup)
    (hlabels : ∀ f ∈ m.functions, f.labels.Nodup) (hnames : (m.functions.map Function.name).Nodup)
    (hapart : ∀ f ∈ m.functions, ∀ v ∈ m.globals, v.name ≠ f.name) :
    m.symbols.Nodup ↔ m.Separate := by
  have hinj : ∀ f ∈ m.functions, ∀ g ∈ m.functions, f ≠ g → f.name ≠ g.name :=
    fun f hf g hg hne he => hne (List.inj_on_of_nodup_map hnames hf hg he)
  rw [symbols, List.nodup_append, List.nodup_flatMap]
  constructor
  · rintro ⟨-, ⟨-, hpair⟩, hdisj⟩
    have hglobal : ∀ f ∈ m.functions, ∀ v ∈ m.globals, v.name ∉ f.symbols.map X86.Label.text :=
      fun f hf v hv hm => hdisj _ (List.mem_map_of_mem hv) _ (List.mem_flatMap.mpr ⟨f, hf, hm⟩) rfl
    refine ⟨fun f hf g hg hc => ?_, fun f hf v hv he => ?_, fun f hf l hl v hv he => ?_⟩
    · have hne : f ≠ g := fun he => (he ▸ hc.length_lt).false
      have hsymm : Std.Symm _ := ⟨fun (f g : Function)
        (hd : (f.symbols.map X86.Label.text).Disjoint (g.symbols.map X86.Label.text)) => hd.symm⟩
      have hd := hpair.forall hf hg hne
      exact ((Function.disjoint_texts_iff (hinj f hf g hg hne)).mp hd).1 hc
    · exact hglobal f hf v hv (Function.mem_texts.mpr (.inr (.inr he)))
    · exact hglobal f hf v hv (Function.mem_texts.mpr (.inr (.inl ⟨l, hl, he⟩)))
  · intro hs
    refine ⟨hglobals, ⟨fun f hf => Function.nodup_symbols (hlabels f hf), ?_⟩, ?_⟩
    · refine (List.Nodup.of_map _ hnames).pairwise_of_forall_ne fun f hf g hg hne => ?_
      exact (Function.disjoint_texts_iff (hinj f hf g hg hne)).mpr
        ⟨hs.functions f hf g hg, hs.functions g hg f hf⟩
    · rintro _ hmem t ht rfl
      obtain ⟨v, hv, rfl⟩ := List.mem_map.mp hmem
      obtain ⟨f, hf, ht⟩ := List.mem_flatMap.mp ht
      rcases Function.mem_texts.mp ht with he | ⟨l, hl, he⟩ | he
      · exact hapart f hf v hv he
      · exact hs.blocks f hf l hl v hv he
      · exact hs.exits f hf v hv he

/-- The assembly of a module defines its symbols in order. They are distinct exactly if no label of
a function has the name of a global or of a label of another function. -/
theorem symbols_distinct_iff {m : Module} {config : Config} {out : Compilation}
    (hnames : (m.functions.map Function.name).Nodup)
    (hapart : ∀ f ∈ m.functions, ∀ v ∈ m.globals, v.name ≠ f.name)
    (h : m.compile config = .ok out) :
    ∃ fns : List CompiledFunction, m.functions.mapM (·.compile config) = .ok fns ∧
      X86.Assembly.text config.fileName m.globals (fns.map fun c => c.lines.map X86.Line.text) =
        .ok out.assembly ∧
      (m.globals.map Global.name ++
        fns.flatMap fun c => (X86.definitions c.lines).map X86.Label.text) = m.symbols ∧
      (m.symbols.Nodup ↔ m.Separate) := by
  obtain ⟨hv, fns, hfns, htext⟩ := compile_ok h
  obtain ⟨hglobals, hverify⟩ := verify_ok hv
  have hf : ∀ f ∈ m.functions, f.WellFormed :=
    fun f hf => Function.wellFormed_of_verify (hverify f hf)
  refine ⟨fns, hfns, htext, ?_,
    nodup_symbols_iff hglobals (fun f hm => (hf f hm).labels) hnames hapart⟩
  rw [definitions_of_mapM hf hfns]
  rfl

/-- A function with two blocks. -/
def twoBlocks (name : String) : Function where
  name := name
  ret := .void
  params := []
  blocks := [
    ⟨some "c", [⟨.br, [.label "b_c"], none, .void⟩]⟩,
    ⟨some "b_c", [⟨.ret, [], none, .void⟩]⟩]

/-- Two functions that use the same names for their blocks. -/
def sharing (name name' : String) : Module where
  globals := [⟨"v", .int 64⟩]
  functions := [twoBlocks name, twoBlocks name']

theorem symbols_distinct_iff_sharing : ∃ out fns, (sharing "a" "b_a").compile {} = .ok out ∧
    (sharing "a" "b_a").functions.mapM (·.compile {}) = .ok fns ∧
    ((sharing "a" "b_a").globals.map Global.name ++
      fns.flatMap fun c => (X86.definitions c.lines).map X86.Label.text).Nodup ∧
    (sharing "a" "b_a").Separate := by
  obtain ⟨out, hout⟩ : ∃ out, (sharing "a" "b_a").compile {} = .ok out :=
    exists_ok_of_toBool (by decide +kernel)
  obtain ⟨fns, hfns, -, hsymbols, hiff⟩ := symbols_distinct_iff (by decide) (by decide) hout
  have hnodup : (sharing "a" "b_a").symbols.Nodup := by decide +kernel
  exact ⟨out, fns, hout, hfns, hsymbols.symm ▸ hnodup, hiff.mp hnodup⟩

/-- The block `b_c` of `a` and the block `c` of `a_b` have the same label. -/
theorem symbols_repeat_sharing : ((sharing "a" "a_b").functions.map Function.name).Nodup ∧
    (∀ f ∈ (sharing "a" "a_b").functions, ∀ v ∈ (sharing "a" "a_b").globals, v.name ≠ f.name) ∧
    ∃ out fns, (sharing "a" "a_b").compile {} = .ok out ∧
      (sharing "a" "a_b").functions.mapM (·.compile {}) = .ok fns ∧
      ¬ ((sharing "a" "a_b").globals.map Global.name ++
        fns.flatMap fun c => (X86.definitions c.lines).map X86.Label.text).Nodup := by
  obtain ⟨out, hout⟩ : ∃ out, (sharing "a" "a_b").compile {} = .ok out :=
    exists_ok_of_toBool (by decide +kernel)
  obtain ⟨hv, fns, hfns, -⟩ := compile_ok hout
  have hf := fun f hf => Function.wellFormed_of_verify ((verify_ok hv).2 f hf)
  refine ⟨by decide, by decide, out, fns, hout, hfns, ?_⟩
  rw [definitions_of_mapM hf hfns]
  decide +kernel

end Module

end IrAsm
