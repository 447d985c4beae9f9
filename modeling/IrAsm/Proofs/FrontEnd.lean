import IrAsm.Proofs.Bytes
import IrAsm.Proofs.Descent

/-!
# The front end ends

The scanner by byte positions and recursive descent over its tokens read a source text together
(`readSource`). An outcome may be that a loop or a call is cut off, or that a character or a token
is missed where one is looked for. If loops may take a little more than two turns for each character
it is neither: the outcome is that of `Module.parse`.
-/

namespace IrAsm

namespace TokenStream

/-- No token of a text stands for its end, and the tokens up to a line end are on one line. -/
theorem regular_of_scanFrom {line : Nat} {cs : List Char} {s : TokenStream}
    (h : scanFrom line cs = .ok s) : s.next.line = line ∧ s.Regular := by
  fun_induction scanFrom line cs generalizing s with
  | case1 line =>
    cases h
    exact ⟨rfl, { ne_eof := fun _ ht => absurd ht List.not_mem_nil, line := .nil }⟩
  | case2 => cases h
  | case3 line c cs l rest hscan ih =>
    simp only [dite_eq_ite] at ih
    obtain ⟨s', hs', rfl⟩ := map_ok_iff.mp h
    obtain ⟨hline, hregular⟩ := ih hs'
    have hnewline := newline_iff_of_scan hscan
    cases l with
    | none =>
      have hc : c ≠ '\n' := by
        intro hc
        cases hnewline.mpr hc
      rw [if_neg hc] at hline
      exact ⟨hline, hregular⟩
    | some l =>
      refine ⟨rfl, { ne_eof := List.forall_mem_cons.mpr ⟨?_, hregular.ne_eof⟩, line := ?_ }⟩
      · obtain ⟨text, hp, -⟩ := Lexeme.exists_piece_of_scan hscan
        exact hp.ne_eof
      · refine List.isChain_cons.mpr ⟨fun t ht hl => ?_, hregular.line⟩
        have hc : c ≠ '\n' := fun hc => hl (Option.some.inj (hnewline.mpr hc))
        rw [if_neg hc] at hline
        obtain ⟨tokens, htokens⟩ : ∃ tokens, s'.tokens = t :: tokens := List.head?_eq_some_iff.mp ht
        rw [next, ahead, htokens] at hline
        exact hline

/-- Each token takes a character at least. -/
theorem size_le_of_scanFrom {line : Nat} {cs : List Char} {s : TokenStream}
    (h : scanFrom line cs = .ok s) : s.size ≤ cs.length := by
  fun_induction scanFrom line cs generalizing s with
  | case1 line =>
    cases h
    exact Nat.le_refl 0
  | case2 => cases h
  | case3 line c cs l rest hscan ih =>
    obtain ⟨s', hs', rfl⟩ := map_ok_iff.mp h
    have hrest := ih hs'
    have hlength := Lexeme.scan_length hscan
    rw [List.length_cons]
    cases l with
    | none => exact Nat.le_succ_of_le (Nat.le_trans hrest hlength)
    | some l => exact Nat.succ_le_succ (Nat.le_trans hrest hlength)

end TokenStream

/-- A step comes to a position further on and between two characters again, or to a fault. -/
theorem Bytes.step_advances {text : List Char} {turns p : Nat} (line : Nat)
    (hturns : text.length < turns) (h : ∃ rest, At text p rest) (hp : p < size text) :
    (∃ fault, step turns text p line = throw (.fault ⟨line, fault⟩)) ∨
      ∃ l q, step turns text p line = pure (l, q) ∧ p < q ∧ ∃ rest, At text q rest := by
  obtain ⟨cs, h⟩ := h
  obtain ⟨c, cs, rfl⟩ := List.exists_cons_of_ne_nil (h.lt_size_iff.mp hp)
  have hstep := finds_step line h (Nat.lt_of_le_of_lt h.length_le hturns)
  cases hscan : Lexeme.scan c cs with
  | error fault =>
    rw [hscan] at hstep
    exact .inl ⟨fault, hstep⟩
  | ok r =>
    obtain ⟨l, rest⟩ := r
    rw [hscan] at hstep
    obtain ⟨q, hq, hstep⟩ := hstep
    exact .inr ⟨l, q, hstep, h.lt hq (Nat.lt_succ_of_le (Lexeme.scan_length hscan)), rest, hq⟩

/-- The result of a reader that agrees with a parser. -/
theorem Descent.Agrees.outcome {α : Type} {c : Cursor} {s : TokenStream} {d : Descent α}
    {p : Parser α} (h : Agrees c s d p) :
    Prod.fst <$> d c = Outcome.ofExcept ((p s).map Prod.fst) := by
  unfold Agrees at h
  cases hp : p s with
  | error e =>
    rw [hp] at h
    rw [show d c = throw (.fault e) from h]
    rfl
  | ok r =>
    rw [hp] at h
    obtain ⟨c', -, hd⟩ := h
    rw [hd]
    rfl

namespace Module

/-- Reads a source text by byte positions and recursive descent. A loop may take so many turns. -/
def readSource (turns : Nat) (source : String) : Outcome Module := do
  let tokens ← Bytes.run turns source.toList turns 0 1
  Prod.fst <$> Descent.definitions ⟨tokens, 0, turns⟩

/-- Whatever is repeated passes a token, or is repeated no more. -/
structure LoopsAdvance : Prop where
  definitions : Item.read.Progresses
  statements : ∀ function, (Statement.read function).Progresses
  params : (Parser.entry .rightParen Param.read).Progresses
  arguments : (Parser.entry .rightParen Instr.readArgument).Progresses
  indices : Instr.readIndex.Progresses
  registers : Instr.readRegister.Progresses
  types : Ty.read.Passes 1

theorem loopsAdvance : LoopsAdvance where
  definitions := Item.progresses_read
  statements := Statement.progresses_read
  params := .entry _ Param.passes_read
  arguments := .entry _ Instr.passes_readArgument
  indices := Instr.progresses_readIndex
  registers := Instr.progresses_readRegister
  types := Ty.passes_read

/-- On every text the front end ends, with a module or with a fault, and no character or token is
looked for where there is none. Each step of the scanner from a position between two characters
comes to such a position further on, or finds a fault. Scanning gives all tokens of the text, and
recursive descent over them reads what `Module.read` reads. Nothing is cut off as soon as loops may
take two turns for each character and two more, and more turns change nothing. -/
theorem front_end_ends (source : String) (turns : Nat)
    (hturns : 2 * source.toList.length + 2 ≤ turns) :
    (∀ p line, (∃ rest, Bytes.At source.toList p rest) → p < Bytes.size source.toList →
      (∃ fault, Bytes.step turns source.toList p line = throw (.fault ⟨line, fault⟩)) ∨
        ∃ l q, Bytes.step turns source.toList p line = pure (l, q) ∧ p < q ∧
          ∃ rest, Bytes.At source.toList q rest) ∧
    Bytes.run turns source.toList turns 0 1 =
      Outcome.ofExcept ((TokenStream.scan source).map TokenStream.toList) ∧
    (∀ s, TokenStream.scan source = .ok s →
      Prod.fst <$> Descent.definitions ⟨s.toList, 0, turns⟩ =
        Outcome.ofExcept ((Module.read s).map Prod.fst)) ∧
    readSource turns source = Outcome.ofExcept (Module.parse source) ∧ LoopsAdvance := by
  have hlength : source.toList.length < turns := by omega
  have hrun : Bytes.run turns source.toList turns 0 1 =
      Outcome.ofExcept ((TokenStream.scan source).map TokenStream.toList) :=
    Bytes.run_eq (.zero source.toList) hlength hlength
  have hread (s : TokenStream) (hs : TokenStream.scan source = .ok s) :
      Prod.fst <$> Descent.definitions ⟨s.toList, 0, turns⟩ =
        Outcome.ofExcept ((Module.read s).map Prod.fst) := by
    have hsize : s.size ≤ source.toList.length := TokenStream.size_le_of_scanFrom hs
    have hviews : Cursor.Views ⟨s.toList, 0, turns⟩ s :=
      { tokens := rfl, regular := (TokenStream.regular_of_scanFrom hs).2,
        turns := by dsimp only; omega }
    exact (Descent.follows_definitions _ s hviews).outcome
  refine ⟨fun p line => Bytes.step_advances line hlength, hrun, hread, ?_, loopsAdvance⟩
  rw [readSource, hrun, parse]
  cases hscan : TokenStream.scan source with
  | error e => rfl
  | ok s =>
    refine (hread s hscan).trans ?_
    change _ = Outcome.ofExcept (Module.read s >>= _)
    cases Module.read s with
    | error e => rfl
    | ok r => rfl

/-- A comment and a name with a character of two bytes, and a type that the text breaks off in. -/
theorem front_end_ends_unclosed :
    2 * ";é\n@\"é\" = global [2 x [".toList.length + 2 ≤ 50 ∧
      readSource 50 ";é\n@\"é\" = global [2 x [" =
        Outcome.ofExcept (parse ";é\n@\"é\" = global [2 x [") :=
  ⟨by decide, (front_end_ends ";é\n@\"é\" = global [2 x [" 50 (by decide)).2.2.2.1⟩

end Module

end IrAsm
