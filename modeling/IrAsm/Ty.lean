/-!
# Types

The types of the IR and their text: `void`, `label`, `iN`, `T*`, the untyped `ptr`, `[N x T]`, and
function types `R (A, B)`.
-/

namespace IrAsm

inductive Ty where
  | void
  | label
  | int (bits : UInt32)
  | ptr (target : Ty)
  /-- The pointer type that does not say what it points to. -/
  | rawPtr
  | array (length : UInt64) (elem : Ty)
  | func (ret : Ty) (params : List Ty)
  deriving Repr, Inhabited

namespace Ty

mutual

/-- Equality of types. -/
def same : Ty → Ty → Bool
  | .void, .void => true
  | .label, .label => true
  | .int a, .int b => a == b
  | .ptr a, .ptr b => same a b
  | .rawPtr, .rawPtr => true
  | .array m a, .array n b => m == n && same a b
  | .func r ps, .func s qs => same r s && sameList ps qs
  | _, _ => false

/-- Equality of parameter lists. -/
def sameList : List Ty → List Ty → Bool
  | [], [] => true
  | p :: ps, q :: qs => same p q && sameList ps qs
  | _, _ => false

end

mutual

theorem same_iff : ∀ a b : Ty, same a b = true ↔ a = b
  | .void, b | .label, b | .rawPtr, b => by cases b <;> simp [same]
  | .int n, b => by cases b <;> simp [same]
  | .ptr t, b => by cases b <;> simp [same, same_iff t]
  | .array n t, b => by cases b <;> simp [same, same_iff t]
  | .func r ps, b => by cases b <;> simp [same, same_iff r, sameList_iff ps]

theorem sameList_iff : ∀ a b : List Ty, sameList a b = true ↔ a = b
  | [], b => by cases b <;> simp [sameList]
  | p :: ps, b => by cases b <;> simp [sameList, same_iff p, sameList_iff ps]

end

instance : DecidableEq Ty := fun a b => decidable_of_iff _ (same_iff a b)

mutual

/-- The text of a type. -/
def text : Ty → String
  | .void => "void"
  | .label => "label"
  | .int bits => "i" ++ toString bits.toNat
  | .ptr target => target.text ++ "*"
  | .rawPtr => "ptr"
  | .array length elem => "[" ++ toString length.toNat ++ " x " ++ elem.text ++ "]"
  | .func ret params => ret.text ++ " (" ++ listText params ++ ")"

/-- The texts of parameter types, with commas between them. -/
def listText : List Ty → String
  | [] => ""
  | [t] => t.text
  | t :: u :: ts => t.text ++ ", " ++ listText (u :: ts)

end

end Ty

end IrAsm
