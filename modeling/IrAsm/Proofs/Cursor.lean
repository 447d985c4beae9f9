import IrAsm.Proofs.Progress
import Mathlib.Data.List.Chain

/-!
# Readers at a cursor

A second way to read tokens: a cursor moves along the list of all tokens, and the end of the text is
a token that it does not move past. A reader of this kind (`Descent`) repeats without a check that
anything was read, and it can look for a token where there is none. Its loops are cut off after a
number of turns that is given from outside, and so are calls that nest as deep. `Follows d p`: if
that number is more than twice the number of tokens left, nothing of the reader `d` is cut off and
no token is missed, and at a cursor it does what the parser `p` does with the stream of the tokens
from there on.
-/

namespace IrAsm

/-- Why a reader stops without a result. -/
inductive Halt where
  | fault (e : ParseError)
  /-- There is no text or token where the reader looked for one. -/
  | outOfRange

/-- What a reader comes to; `none` if it is cut off. -/
abbrev Outcome := ExceptT Halt Option

def Outcome.cut {α : Type} : Outcome α := (none : Option (Except Halt α))

/-- The outcome of a reader that ends, with a result or with a fault. -/
def Outcome.ofExcept {α : Type} : Except ParseError α → Outcome α
  | .ok a => pure a
  | .error e => throw (.fault e)

structure Cursor where
  tokens : List Token
  position : Nat
  /-- How many turns a loop may take, and how deep calls may nest. -/
  turns : Nat

abbrev Descent := StateT Cursor Outcome

namespace Descent

/-- The token `n` places ahead, or the last token. -/
def tokenAt (n : Nat) : Descent Token := do
  let c ← get
  match c.tokens[min (c.position + n) (c.tokens.length - 1)]? with
  | some t => return t
  | none => throw .outOfRange

/-- The lexeme at the cursor. -/
def peek : Descent Lexeme := do return (← tokenAt 0).lexeme

/-- The lexeme behind the one at the cursor. -/
def peekSecond : Descent Lexeme := do return (← tokenAt 1).lexeme

/-- Gives the token at the cursor and passes it, unless the text ends there. -/
def advance : Descent Token := do
  let t ← tokenAt 0
  if t.lexeme = .eof then
    return t
  else
    modify fun c => { c with position := c.position + 1 }
    return t

def pass : Descent Unit := do
  let _ ← advance

/-- Fails at the token at the cursor. -/
def fail {α : Type} (fault : ParseFault) : Descent α := do
  throw (.fault ⟨(← tokenAt 0).line, fault⟩)

def atWord (w : String) : Descent Bool := do return (← peek) == .word w

def eat (p : Punct) : Descent Bool := do
  if (← peek) = .punct p then
    pass
    return true
  else
    return false

def expect (k : Kind) : Descent String := do
  let l ← peek
  if l.kind = k then
    pass
    return l.text
  else
    fail (.expected k l)

def expectPunct (p : Punct) : Descent Unit := do
  let _ ← expect (.punct p)

/-- Runs `d` with the number of turns that it may take. -/
def within {α : Type} (d : Nat → Descent α) : Descent α := do d (← get).turns

def cut {α : Type} : Descent α := fun _ => Outcome.cut

def skipWhileIn (p : Lexeme → Bool) : Nat → Descent Unit
  | 0 => cut
  | n + 1 => do
    if p (← peek) then
      pass
      skipWhileIn p n
    else
      return ()

/-- Passes tokens as long as they satisfy `p`. -/
def skipWhile (p : Lexeme → Bool) : Descent Unit := within (skipWhileIn p)

def loopIn {α : Type} (turn : Descent (Option α × Bool)) : Nat → Descent (List α)
  | 0 => cut
  | n + 1 => do
    let (found, more) ← turn
    if more then
      return found.toList ++ (← loopIn turn n)
    else
      return found.toList

/-- Repeats `turn` as long as it says so, and collects what it yields. -/
def loop {α : Type} (turn : Descent (Option α × Bool)) : Descent (List α) := within (loopIn turn)

end Descent

/-! ## What stands at a cursor -/

namespace TokenStream

/-- No token stands for the end of the text, and a line goes up to its end. -/
structure Regular (s : TokenStream) : Prop where
  ne_eof : ∀ t ∈ s.tokens, t.lexeme ≠ .eof
  line : s.tokens.IsChain fun t u => t.lexeme ≠ .newline → u.line = t.line

variable {s : TokenStream}

theorem Regular.of_suffix {rest : List Token} (h : s.Regular) (hrest : rest <:+ s.tokens) :
    Regular { s with tokens := rest } where
  ne_eof t ht := h.ne_eof t (hrest.mem ht)
  line := h.line.suffix hrest

theorem next_lexeme_eq_eof (h : s.Regular) : s.next.lexeme = .eof ↔ s.tokens = [] := by
  obtain ⟨tokens, endLine⟩ := s
  cases tokens with
  | nil => exact iff_of_true rfl rfl
  | cons t ts => exact iff_of_false (h.ne_eof t List.mem_cons_self) (List.cons_ne_nil t ts)

end TokenStream

/-- From the cursor on stand the tokens of `s`, and there are turns enough for them. -/
structure Cursor.Views (c : Cursor) (s : TokenStream) : Prop where
  tokens : c.tokens.drop c.position = s.toList
  regular : s.Regular
  turns : 2 * s.size + 2 ≤ c.turns

theorem Parser.skipWhile_eq (q : Lexeme → Bool) {s : TokenStream} (hs : s.Regular) :
    skipWhile q s =
      if s.next.lexeme ≠ .eof ∧ q s.next.lexeme then skipWhile q s.tail else .ok ((), s) := by
  obtain ⟨tokens, endLine⟩ := s
  cases tokens with
  | nil => exact (if_neg fun h => h.1 rfl).symm
  | cons t tokens =>
    have ht : t.lexeme ≠ .eof := hs.ne_eof t List.mem_cons_self
    change _ = if t.lexeme ≠ .eof ∧ q t.lexeme then _ else _
    simp only [skipWhile, List.dropWhile_cons, ht, ne_eq, not_false_eq_true, true_and]
    split
    · rfl
    · rfl

namespace Descent

open TokenStream

variable {α β : Type} {c c' : Cursor} {s s' : TokenStream}

theorem bind_apply (d : Descent α) (f : α → Descent β) (c : Cursor) :
    (d >>= f) c = d c >>= fun r => f r.1 r.2 := rfl

theorem tokenAt_eq (h : c.Views s) (n : Nat) : tokenAt n c = pure (s.ahead n, c) := by
  have hlen : c.tokens.length - c.position = s.size + 1 := by
    rw [← List.length_drop, h.tokens, toList, List.length_append, List.length_singleton, size]
  have hget : c.tokens[min (c.position + n) (c.tokens.length - 1)]? = some (s.ahead n) := by
    rw [show min (c.position + n) (c.tokens.length - 1) = c.position + min n s.size by omega,
      ← List.getElem?_drop, h.tokens, toList, ahead]
    rcases Nat.lt_or_ge n s.size with hn | hn
    · rw [Nat.min_eq_left (Nat.le_of_lt hn), List.getElem?_append_left hn,
        List.getElem?_eq_getElem hn, Option.getD_some]
    · rw [Nat.min_eq_right hn, size, List.getElem?_concat_length, List.getElem?_eq_none hn,
        Option.getD_none]
  change (match c.tokens[min (c.position + n) (c.tokens.length - 1)]? with
    | some t => pure t
    | none => throw .outOfRange : Descent Token) c = _
  rw [hget]
  rfl

theorem peek_eq (h : c.Views s) : peek c = pure (s.next.lexeme, c) := by
  rw [peek, bind_apply, tokenAt_eq h]
  rfl

/-- The cursor does not move past the end of the text. -/
theorem advance_eq (h : c.Views s) : ∃ c', c'.Views s.tail ∧ advance c = pure (s.next, c') := by
  have hadvance : advance c =
      (if s.next.lexeme = .eof then pure s.next
        else (do modify fun c => { c with position := c.position + 1 }; return s.next) :
          Descent Token) c := by
    rw [advance, bind_apply, tokenAt_eq h]
    rfl
  rw [hadvance]
  split
  · next heof =>
    have hnil := (next_lexeme_eq_eof h.regular).mp heof
    refine ⟨c, ?_, rfl⟩
    rw [show s.tail = s by rw [tail, hnil, List.tail_nil, ← hnil]]
    exact h
  · next heof =>
    have hsize := size_tail_lt heof
    have hturns := h.turns
    refine ⟨_, ⟨?_, h.regular.of_suffix (List.tail_suffix _), by dsimp only; omega⟩, rfl⟩
    rw [← List.tail_drop, h.tokens, toList,
      List.tail_append_of_ne_nil (mt (next_lexeme_eq_eof h.regular).mpr heof)]
    rfl

/-! ## Agreement -/

/-- At this cursor `d` does what `p` does with this stream. -/
def Agrees (c : Cursor) (s : TokenStream) (d : Descent α) (p : Parser α) : Prop :=
  match p s with
  | .ok (a, s') => ∃ c', c'.Views s' ∧ d c = pure (a, c')
  | .error e => d c = throw (.fault e)

def Follows (d : Descent α) (p : Parser α) : Prop := ∀ c s, c.Views s → Agrees c s d p

theorem Agrees.of_ok {d : Descent α} {p : Parser α} {a : α} (hp : p s = .ok (a, s'))
    (hc : c'.Views s') (hd : d c = pure (a, c')) : Agrees c s d p := by
  unfold Agrees
  rw [hp]
  exact ⟨c', hc, hd⟩

theorem Agrees.of_error {d : Descent α} {p : Parser α} {e : ParseError} (hp : p s = .error e)
    (hd : d c = throw (.fault e)) : Agrees c s d p := by
  unfold Agrees
  rw [hp]
  exact hd

theorem Agrees.bind {d : Descent α} {p : Parser α} {f : α → Descent β} {k : α → Parser β}
    (h : Agrees c s d p)
    (hk : ∀ a s' c', p s = .ok (a, s') → c'.Views s' → Agrees c' s' (f a) (k a)) :
    Agrees c s (d >>= f) (p >>= k) := by
  have hparser : (p >>= k) s = p s >>= fun r => k r.1 r.2 := rfl
  unfold Agrees at h ⊢
  rw [hparser, bind_apply]
  cases hp : p s with
  | error e =>
    rw [hp] at h
    rw [show d c = throw (.fault e) from h]
    rfl
  | ok r =>
    obtain ⟨a, s'⟩ := r
    rw [hp] at h
    obtain ⟨c', hc, hd⟩ := h
    rw [hd]
    exact hk a s' c' hp hc

/-- It matters only what the parser does with this stream. -/
theorem Agrees.congr {d : Descent α} {p q : Parser α} (h : Agrees c s d p) (hpq : p s = q s) :
    Agrees c s d q := by
  unfold Agrees at h ⊢
  rwa [← hpq]

namespace Follows

variable {d : Descent α} {p : Parser α} {f : α → Descent β} {k : α → Parser β}

theorem bind (h : Follows d p) (hk : ∀ a, Follows (f a) (k a)) : Follows (d >>= f) (p >>= k) :=
  fun c s hc => (h c s hc).bind fun a s' c' _ hc' => hk a c' s' hc'

theorem pure (a : α) : Follows (pure a) (pure a) := fun _ _ hc => .of_ok rfl hc rfl

theorem fail (fault : ParseFault) :
    Follows (Descent.fail fault : Descent α) (Parser.fail fault) := by
  intro c s hc
  refine .of_error rfl ?_
  rw [Descent.fail, bind_apply, tokenAt_eq hc]
  rfl

theorem peek : Follows Descent.peek Parser.peek := fun _ _ hc => .of_ok rfl hc (peek_eq hc)

theorem peekSecond : Follows Descent.peekSecond Parser.peekSecond := by
  intro c s hc
  refine .of_ok rfl hc ?_
  rw [Descent.peekSecond, bind_apply, tokenAt_eq hc]
  rfl

theorem pass : Follows Descent.pass Parser.advance := by
  intro c s hc
  obtain ⟨c', hc', hadvance⟩ := advance_eq hc
  refine .of_ok rfl hc' ?_
  rw [Descent.pass, bind_apply, hadvance]
  rfl

theorem atWord (w : String) : Follows (Descent.atWord w) (Parser.atWord w) :=
  peek.bind fun _ => pure _

theorem eat (p : Punct) : Follows (Descent.eat p) (Parser.eat p) := by
  refine peek.bind fun l => ?_
  split
  · exact pass.bind fun _ => pure true
  · exact pure false

theorem expect (k : Kind) : Follows (Descent.expect k) (Parser.expect k) := by
  refine peek.bind fun l => ?_
  split
  · exact pass.bind fun _ => pure _
  · exact fail _

theorem expectPunct (p : Punct) : Follows (Descent.expectPunct p) (Parser.expectPunct p) :=
  (expect _).bind fun _ => pure ()

/-- A loop ends if its turns can be counted by the tokens left. -/
theorem within {f : Nat → Descent α} {p : Parser α}
    (h : ∀ n, (∀ c s, s.size < n → c.Views s → Agrees c s (f n) p) →
      ∀ c s, s.size ≤ n → c.Views s → Agrees c s (f (n + 1)) p) : Follows (Descent.within f) p := by
  have hin (n : Nat) : ∀ c s, s.size < n → c.Views s → Agrees c s (f n) p := by
    induction n with
    | zero => exact fun _ _ hs => absurd hs (Nat.not_lt_zero _)
    | succ n ih => exact fun c s hs => h n ih c s (Nat.le_of_lt_succ hs)
  intro c s hc
  have hturns := hc.turns
  exact hin c.turns c s (by omega) hc

/-- Passing tokens ends at the end of the text at the latest, if `p` does not hold there. -/
theorem skipWhile {p q : Lexeme → Bool} (heof : p .eof = false) (hpq : ∀ l, l ≠ .eof → p l = q l) :
    Follows (Descent.skipWhile p) (Parser.skipWhile q) := by
  refine within fun n ih c s hs hc => ?_
  have hturn : Agrees c s (skipWhileIn p (n + 1))
      (Parser.peek >>= fun l =>
        if p l then Parser.advance >>= fun _ => Parser.skipWhile q else Pure.pure ()) := by
    refine (peek c s hc).bind fun l s₁ c₁ hs₁ hc₁ => ?_
    cases hs₁
    split
    · next hl =>
      have hne : s.next.lexeme ≠ .eof := fun h => by simp [h, heof] at hl
      refine (pass c₁ s hc₁).bind fun _ s₂ c₂ hs₂ hc₂ => ?_
      cases hs₂
      exact ih c₂ _ (Nat.lt_of_lt_of_le (size_tail_lt hne) hs) hc₂
    · exact pure () c₁ s hc₁
  refine hturn.congr ?_
  have hiff : p s.next.lexeme = true ↔ s.next.lexeme ≠ .eof ∧ q s.next.lexeme = true := by
    by_cases h : s.next.lexeme = .eof
    · simp [h, heof]
    · simp [h, hpq _ h]
  rw [Parser.bind_eq rfl, Parser.skipWhile_eq q hc.regular]
  simp only [hiff]
  split
  · rfl
  · rfl

/-- Repeating ends if each turn that goes on has passed a token. -/
theorem loop {turn : Descent (Option α × Bool)} {item : Parser (Option α × Bool)}
    (h : Follows turn item) (hitem : item.Progresses) :
    Follows (Descent.loop turn) (Parser.collect item) := by
  refine within fun n ih c s hs hc => ?_
  have hturn : Agrees c s (loopIn turn (n + 1)) (item >>= fun x =>
      if x.2 then Parser.collect item >>= fun others => Pure.pure (x.1.toList ++ others)
      else Pure.pure x.1.toList) := by
    refine (h c s hc).bind fun (found, more) s₁ c₁ hs₁ hc₁ => ?_
    cases more with
    | false => exact pure _ c₁ s₁ hc₁
    | true =>
      have hless : s₁.size < n := Nat.lt_of_lt_of_le (hitem s found s₁ hs₁) hs
      exact (ih c₁ s₁ hless hc₁).bind fun _ s₂ c₂ _ hc₂ => pure _ c₂ s₂ hc₂
  exact hturn.congr (Parser.collect_eq hitem s).symm

end Follows

end Descent

end IrAsm
