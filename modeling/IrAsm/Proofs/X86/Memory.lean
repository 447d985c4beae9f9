import IrAsm.Proofs.X86.Machine

/-!
# Words in memory

A word lies in the eight bytes from its address on. Addresses are compared by their distance, so
that a region may go around the end of memory: `Within lo top b` says that the byte `b` lies from
`lo` on and before `top`. A word that is stored is read back, and a store changes nothing outside
the word.
-/

namespace IrAsm.X86

/-- The byte `b` belongs to the word at `a`. -/
def InWord (a b : Word) : Prop := b - a < 8

def Within (lo top b : Word) : Prop := b - lo < top - lo

/-- No byte of the word at `a` lies in a region. -/
def Off (lo top a : Word) : Prop := ∀ b, InWord a b → ¬ Within lo top b

/-- The words at `a` and `b` have no byte in common. -/
def Apart (a b : Word) : Prop := 8 ≤ a - b ∧ 8 ≤ b - a

theorem Apart.not_inWord {a b x : Word} (h : Apart a b) (hx : InWord a x) : ¬ InWord b x := by
  unfold Apart InWord at *
  bv_omega

namespace Cpu

variable {c c' : Cpu} {a b w lo top : Word}

theorem mem_store_of_not_inWord (h : ¬ InWord a b) : (c.store a w).mem b = c.mem b := if_neg h

theorem mem_store_of_off (h : Off lo top a) (hb : Within lo top b) :
    (c.store a w).mem b = c.mem b :=
  mem_store_of_not_inWord fun hw => h b hw hb

/-- A word depends on its bytes only. -/
theorem load_congr (h : ∀ b, InWord a b → c'.mem b = c.mem b) : c'.load a = c.load a := by
  have hbyte (k : Word) (hk : k < 8) : c'.mem (a + k) = c.mem (a + k) := by
    refine h _ ?_
    unfold InWord
    bv_omega
  have h0 : c'.mem a = c.mem a := h a (by unfold InWord; bv_omega)
  simp only [load, h0, hbyte 1 (by decide), hbyte 2 (by decide), hbyte 3 (by decide),
    hbyte 4 (by decide), hbyte 5 (by decide), hbyte 6 (by decide), hbyte 7 (by decide)]

theorem load_store_of_apart (h : Apart a b) : (c.store b w).load a = c.load a :=
  load_congr fun _ hx => mem_store_of_not_inWord (h.not_inWord hx)

/-- One more byte of a word, put behind those above it. -/
theorem append_byte (w : Word) {n m k : Nat} (h : m = k + 8) :
    (w >>> m).setWidth n ++ (w >>> k).setWidth 8 = (w >>> k).setWidth (n + 8) := by
  ext i hi
  simp only [BitVec.getElem_append, BitVec.getElem_setWidth, BitVec.getLsbD_ushiftRight]
  split
  · rfl
  · rw [h, show k + 8 + (i - 8) = k + i by omega]

/-- The bytes of a word, put together. -/
theorem append_bytes (w : Word) :
    (w >>> 56).setWidth 8 ++ (w >>> 48).setWidth 8 ++ (w >>> 40).setWidth 8 ++
      (w >>> 32).setWidth 8 ++ (w >>> 24).setWidth 8 ++ (w >>> 16).setWidth 8 ++
        (w >>> 8).setWidth 8 ++ w.setWidth 8 = w := by
  rw [append_byte w (m := 56) rfl, append_byte w (m := 48) rfl, append_byte w (m := 40) rfl,
    append_byte w (m := 32) rfl, append_byte w (m := 24) rfl, append_byte w (m := 16) rfl]
  simpa using append_byte w (n := 56) (m := 8) (k := 0) rfl

theorem load_store (c : Cpu) (a w : Word) : (c.store a w).load a = w := by
  have hbyte (k : Word) (hk : k < 8) :
      (c.store a w).mem (a + k) = (w >>> (8 * k.toNat)).setWidth 8 := by
    have hd : a + k - a = k := by bv_omega
    simp only [store, hd, hk, if_true]
  have h0 : (c.store a w).mem a = w.setWidth 8 := by
    simpa using hbyte 0 (by decide)
  rw [load, h0, hbyte 1 (by decide), hbyte 2 (by decide), hbyte 3 (by decide), hbyte 4 (by decide),
    hbyte 5 (by decide), hbyte 6 (by decide), hbyte 7 (by decide)]
  exact append_bytes w

end Cpu

end IrAsm.X86
