import IrAsm.Proofs.Shape
import IrAsm.Proofs.TypeText

/-!
# What parsers read

`p.Reads ls a next`: from the lexemes `ls`, in front of a lexeme that satisfies `next`, the parser
`p` gives `a`, and it stops there. A parser that looks ahead says by `next` where it stops. In a
sequence the lexeme ahead is the first one of what is read then (`Ahead`).
-/

namespace IrAsm

namespace TokenStream

variable {s : TokenStream} {line : Nat} {ls ls' : List Lexeme}

@[simp] theorem prepend_nil : s.prepend line [] = s := rfl

theorem prepend_append : s.prepend line (ls ++ ls') = (s.prepend line ls').prepend line ls := by
  simp [prepend]

@[simp] theorem size_prepend : (s.prepend line ls).size = ls.length + s.size := by
  simp [prepend, size, Lexeme.onLine]

end TokenStream

namespace Parser

variable {α β : Type} {p : Parser α} {k : α → Parser β} {a : α} {b : β} {s s' : TokenStream}
  {l : Lexeme} {ls ls' : List Lexeme} {P Q : Lexeme → Prop}

theorem bind_eq (h : p s = .ok (a, s')) : (p >>= k) s = k a s' := by
  change p s >>= _ = _
  rw [h]
  rfl

theorem bind_pure_eq (p : Parser α) (g : α → β) (s : TokenStream) :
    (p >>= fun a => pure (g a)) s = (p s).map fun r => (g r.1, r.2) := by
  change p s >>= _ = _
  cases p s with
  | error e => rfl
  | ok r => rfl

/-- The lexeme `l` comes first if `ls` stands in front of a lexeme that satisfies `Q`. -/
def Ahead (Q : Lexeme → Prop) : List Lexeme → Lexeme → Prop
  | [], l => Q l
  | l' :: _, l => l = l'

theorem ahead_prepend (h : Q s.next.lexeme) (line : Nat) :
    Ahead Q ls (s.prepend line ls).next.lexeme := by
  cases ls with
  | nil => exact h
  | cons l ls => exact rfl

def Reads (p : Parser α) (ls : List Lexeme) (a : α) (next : Lexeme → Prop) : Prop :=
  ∀ (line : Nat) (s : TokenStream), next s.next.lexeme → p (s.prepend line ls) = .ok (a, s)

namespace Reads

theorem pure (a : α) : Reads (pure a) [] a Q := fun _ _ _ => rfl

theorem bind (hp : p.Reads ls a P) (hk : (k a).Reads ls' b Q) (h : ∀ l, Ahead Q ls' l → P l) :
    (p >>= k).Reads (ls ++ ls') b Q := by
  intro line s hs
  rw [TokenStream.prepend_append, bind_eq (hp line _ (h _ (ahead_prepend hs line)))]
  exact hk line s hs

/-- What is read then does not matter to a parser that does not look ahead. -/
theorem andThen (hp : p.Reads ls a fun _ => True) (hk : (k a).Reads ls' b Q) :
    (p >>= k).Reads (ls ++ ls') b Q := hp.bind hk fun _ _ => trivial

theorem mono (hp : p.Reads ls a P) (h : ∀ l, Q l → P l) : p.Reads ls a Q :=
  fun line s hs => hp line s (h _ hs)

theorem andNothing (hp : p.Reads ls a Q) (hk : (k a).Reads [] b Q) : (p >>= k).Reads ls b Q :=
  fun line s hs => (bind_eq (hp line s hs)).trans (hk line s hs)

/-- Looking at the lexeme ahead reads nothing. -/
theorem peek {k : Lexeme → Parser β} (hk : (k l).Reads (l :: ls) b Q) :
    (Parser.peek >>= k).Reads (l :: ls) b Q := fun line s hs => (bind_eq rfl).trans (hk line s hs)

theorem atWord {w : String} {k : Bool → Parser β} (hk : (k (l == .word w)).Reads (l :: ls) b Q) :
    (Parser.atWord w >>= k).Reads (l :: ls) b Q :=
  fun line s hs => (bind_eq rfl).trans (hk line s hs)

theorem advance (l : Lexeme) : Parser.advance.Reads [l] () Q := fun _ _ _ => rfl

theorem expect (l : Lexeme) : (Parser.expect l.kind).Reads [l] l.text Q := by
  intro line s _
  rw [Parser.expect, bind_eq rfl]
  exact if_pos rfl ▸ rfl

theorem expectPunct (p : Punct) : (Parser.expectPunct p).Reads [.punct p] () Q :=
  fun line s h => bind_eq (expect (.punct p) line s h)

theorem skipWhile {p : Lexeme → Bool} : (Parser.skipWhile p).Reads [] () fun l => p l = false := by
  rintro line ⟨tokens, endLine⟩ hs
  cases tokens with
  | nil => rfl
  | cons t tokens =>
    have ht : p t.lexeme = false := hs
    rw [TokenStream.prepend_nil, Parser.skipWhile, List.dropWhile_cons_of_neg (by simp [ht])]

/-- Nothing is passed over if the lexeme ahead does not satisfy `p`. -/
theorem passing {p : Lexeme → Bool} {k : Unit → Parser β} (h : ∀ l, Ahead Q ls l → p l = false)
    (hk : (k ()).Reads ls b Q) : (Parser.skipWhile p >>= k).Reads ls b Q := skipWhile.bind hk h

end Reads

/-! ## Repetition -/

section
variable {item : Parser (Option α × Bool)} {found : Option α}

theorem collect_more (h : item s = .ok ((found, true), s')) (hsize : s'.size < s.size) :
    collect item s = (collect item s').map fun r => (found.toList ++ r.1, r.2) := by
  rw [collect, h]
  simp only [hsize, decide_true, Bool.and_self, if_true]
  cases collect item s' with
  | error e => rfl
  | ok r => rfl

/-- What is collected starts with the first item. -/
theorem collect_ok {as : List α} (h : collect item s = .ok (as, s')) : ∃ found more rest others,
    item s = .ok ((found, more), rest) ∧ as = found.toList ++ others ∧
    (more = false → others = []) := by
  rw [collect] at h
  split at h
  · cases h
  · next found more rest hitem =>
    split at h
    · next hmore =>
      split at h
      · cases h
      · next others last _ =>
        cases h
        exact ⟨found, more, rest, others, hitem, rfl, fun hf => by simp [hf] at hmore⟩
    · cases h
      exact ⟨found, more, _, [], hitem, by simp, fun _ => rfl⟩

theorem collect_done (h : item s = .ok ((found, false), s')) :
    collect item s = .ok (found.toList, s') := by
  rw [collect, h]
  rfl

end

/-- Lists of lexemes with commas between them. -/
def commas : List (List Lexeme) → List Lexeme
  | [] => []
  | [ls] => ls
  | ls :: ls' :: rest => ls ++ .punct .comma :: commas (ls' :: rest)

theorem Reads.eat (p : Punct) : (Parser.eat p).Reads [.punct p] true Q := by
  refine .peek ?_
  rw [if_pos rfl]
  exact (advance _).andThen (.pure true)

theorem Reads.eat_none (p : Punct) : (Parser.eat p).Reads [] false fun l => l ≠ .punct p := by
  intro line s hs
  rw [Parser.eat, bind_eq rfl]
  exact if_neg hs ▸ rfl

section
variable {item : Parser α} {lexemes : α → List Lexeme} {close : Punct}

/-- One item of a list, and whether a comma follows it. -/
def entry (close : Punct) (item : Parser α) : Parser (Option α × Bool) := do
  if (← Parser.peek) = .punct close then
    return (none, false)
  else
    let a ← item
    return (some a, ← Parser.eat .comma)

theorem listUpTo_eq : listUpTo close item = do
    let items ← collect (entry close item)
    expectPunct close
    return items := rfl

variable (hitem : item.Reads (lexemes a) a fun l => l = .punct .comma ∨ l = .punct close)
  (hhead : ∃ l ls, lexemes a = l :: ls ∧ l ≠ .punct close)
include hitem hhead

theorem Reads.entry_last (hclose : close ≠ .comma) :
    (entry close item).Reads (lexemes a) (some a, false) fun l => l = .punct close := by
  obtain ⟨l, ls, hl, hne⟩ := hhead
  have heat : (Parser.eat .comma >>= fun more => Pure.pure (some a, more)).Reads [] (some a, false)
      fun l => l = .punct close :=
    (eat_none .comma).bind (.pure _) fun l (h : l = _) => by simpa [h] using hclose
  have hread :=
    hitem.bind (k := fun a => Parser.eat .comma >>= fun more => Pure.pure (some a, more)) heat
      fun l h => .inr h
  rw [List.append_nil, hl] at hread
  rw [hl]
  exact .peek (if_neg hne ▸ hread)

theorem Reads.entry_comma :
    (entry close item).Reads (lexemes a ++ [.punct .comma]) (some a, true) Q := by
  obtain ⟨l, ls, hl, hne⟩ := hhead
  have heat : (Parser.eat .comma >>= fun more => Pure.pure (some a, more)).Reads [.punct .comma]
      (some a, true) Q :=
    (eat .comma).andThen (.pure _)
  have hread :=
    hitem.bind (k := fun a => Parser.eat .comma >>= fun more => Pure.pure (some a, more)) heat
      fun l h => .inl h
  rw [hl] at hread ⊢
  exact .peek (if_neg hne ▸ hread)

omit hitem hhead in
/-- Items with commas between them are read up to what closes them. -/
theorem Reads.listUpTo (hclose : close ≠ .comma) {as : List α}
    (hitem : ∀ a ∈ as, item.Reads (lexemes a) a fun l => l = .punct .comma ∨ l = .punct close)
    (hhead : ∀ a ∈ as, ∃ l ls, lexemes a = l :: ls ∧ l ≠ .punct close) :
    (Parser.listUpTo close item).Reads (commas (as.map lexemes) ++ [.punct close]) as Q := by
  have hcollect : (collect (entry close item)).Reads (commas (as.map lexemes)) as
      fun l => l = .punct close := by
    intro line s hs
    induction as with
    | nil =>
      have hstop : entry close item s = .ok ((none, false), s) := by
        rw [entry, bind_eq rfl]
        exact if_pos hs ▸ rfl
      exact collect_done hstop
    | cons a as ih =>
      rw [List.forall_mem_cons] at hitem hhead
      cases as with
      | nil => exact collect_done (entry_last hitem.1 hhead.1 hclose line s hs)
      | cons a' as =>
        have hcomma := entry_comma (Q := fun _ => True) hitem.1 hhead.1 line
          (s.prepend line (commas ((a' :: as).map lexemes))) trivial
        rw [← TokenStream.prepend_append, List.append_assoc] at hcomma
        have hmore := collect_more hcomma (by simp; omega)
        rw [ih hitem.2 hhead.2] at hmore
        exact hmore
  rw [listUpTo_eq]
  exact hcollect.bind ((expectPunct close).andThen (.pure as)) fun l h => h

end

end Parser

/-! ## Types and operands -/

theorem Ty.reads (t : Ty) :
    Ty.read.Reads t.lexemes t fun l => l ≠ .punct .star ∧ l ≠ .punct .leftParen :=
  fun line s hs => read_lexemes t line s hs.1 hs.2

theorem Instr.isQualifier_lead (t : Ty) : isQualifier t.lead = false := by
  have h := t.startsWith_lead
  cases hl : t.lead with
  | word w => simpa [isQualifier, hl] using h
  | _ => rfl

namespace Operand

/-- The lexemes of an operand. -/
def lexemes : Operand → List Lexeme
  | .reg x => [.localName x]
  | .imm v => [.integer v.text]
  | .global x | .callee x => [.globalName x]
  | .label x => [.word "label", .localName x]

theorem reads {a : Operand} (ha : a.isValue) {Q : Lexeme → Prop} :
    Operand.read.Reads a.lexemes a Q := by
  cases a with
  | reg x => exact .peek ((Parser.Reads.advance _).andThen (.pure _))
  | global x => exact .peek ((Parser.Reads.advance _).andThen (.pure _))
  | imm v =>
    refine .peek ?_
    simp only [Word.ofText_text]
    exact (Parser.Reads.advance _).andThen (.pure _)
  | label x => cases ha
  | callee x => cases ha

theorem reads_label (x : String) {Q : Lexeme → Prop} :
    Operand.readLabel.Reads (Operand.label x).lexemes (.label x) Q := by
  refine .atWord ?_
  exact (Parser.Reads.advance _).andThen ((Parser.Reads.expect (.localName x)).andThen (.pure _))

end Operand

end IrAsm
