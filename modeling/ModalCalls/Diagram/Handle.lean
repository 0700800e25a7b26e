/-!
# Handles of diagram nodes

A handle is a signed index.  The index names a stored node and the sign says whether the function
of that node is meant or its complement, so complementing a function costs nothing and needs no
node.

There is a single terminal node, with index `1`: the constant `1` is the handle `+1` and the
constant `0` is `-1`.

A handle that comes from outside, as a word, is read by `Handle.ofWord`.  It may refer to a node that
does not exist.
-/

namespace ModalCalls

/-- A signed index: the node, and whether its function is complemented. -/
structure Handle where
  code : Int
deriving DecidableEq, Inhabited

namespace Handle

/-- The function of node `index`. -/
def positive (index : Nat) : Handle :=
  ⟨index⟩

/-- The complement of the function of node `index`. -/
def negative (index : Nat) : Handle :=
  ⟨-(index : Int)⟩

/-- The handle a word stands for.  Signed indices have 32 bits, so a word from `2 ^ 31` on is a
negative index: the last word is the constant `0`. -/
def ofWord (w : UInt32) : Handle :=
  ⟨w.toInt32.toInt⟩

instance : Neg Handle where
  neg f := ⟨-f.code⟩

/-- The constant `1`. -/
def one : Handle :=
  positive 1

/-- The constant `0`. -/
def zero : Handle :=
  negative 1

/-- The constant of a truth value. -/
def constant (value : Bool) : Handle :=
  if value then one else zero

/-- The node a handle refers to. -/
@[inline]
def index (f : Handle) : Nat :=
  f.code.natAbs

/-- Whether the node's function is complemented. -/
@[inline]
def isNegated (f : Handle) : Bool :=
  f.code < 0

/-- Whether a handle denotes one of the two constants. -/
@[inline]
def isTerminal (f : Handle) : Bool :=
  f.index == 1

/-- Complement a handle if asked to. -/
@[inline]
def negateIf (negate : Bool) (f : Handle) : Handle :=
  if negate then -f else f

/-- A word that differs for different handles: twice the index, plus one for a complement. -/
@[inline]
def literal (f : Handle) : UInt64 :=
  UInt64.ofNat (2 * f.index + if f.isNegated then 1 else 0)

/-- The written form, `@5` or `~@5`. -/
def display (f : Handle) : String :=
  (if f.isNegated then "~@" else "@") ++ toString f.index

/-- The written form that shows the signed index. -/
def debug (f : Handle) : String :=
  "Ref(" ++ toString f.code ++ ")"

/-! ## Laws of complement

Complementing turns a sign.  It is its own inverse and keeps the index, so two handles of one node are
complements of each other or the same.
-/

@[simp] theorem neg_neg (f : Handle) : - -f = f := by
  show (⟨- -f.code⟩ : Handle) = f
  rw [Int.neg_neg]

@[simp] theorem index_neg (f : Handle) : (-f).index = f.index :=
  Int.natAbs_neg f.code

@[simp] theorem isTerminal_neg (f : Handle) : (-f).isTerminal = f.isTerminal := by
  simp only [isTerminal, index_neg]

@[simp] theorem negateIf_false (f : Handle) : f.negateIf false = f := rfl

@[simp] theorem negateIf_true (f : Handle) : f.negateIf true = -f := rfl

@[simp] theorem index_negateIf (negate : Bool) (f : Handle) : (f.negateIf negate).index = f.index := by
  cases negate <;> simp

@[simp] theorem index_positive (i : Nat) : (positive i).index = i := rfl

/-- A word below `2 ^ 31` stands for the plain handle of its node. -/
theorem ofWord_eq_positive {w : UInt32} (h : w.toNat < 2147483648) : ofWord w = positive w.toNat := by
  have hcode : w.toInt32.toInt = (w.toNat : Int) := by
    rw [← Int32.toInt_toBitVec, UInt32.toBitVec_toInt32, BitVec.toInt_eq_toNat_of_lt]
    · rfl
    · show 2 * w.toNat < _
      omega
  exact congrArg Handle.mk hcode

@[simp] theorem isNegated_positive (i : Nat) : (positive i).isNegated = false := by
  have h : ¬ (i : Int) < 0 := by omega
  exact decide_eq_false h

/-- A handle is the plain handle of its node, complemented if its sign says so. -/
theorem eq_negateIf_positive (f : Handle) : f = (positive f.index).negateIf f.isNegated := by
  obtain ⟨code⟩ := f
  by_cases h : code < 0
  · have hcode : code = -(code.natAbs : Int) := by omega
    simp only [isNegated, index, h, decide_true, negateIf_true, positive]
    exact congrArg Handle.mk hcode
  · have hcode : code = (code.natAbs : Int) := by omega
    simp only [isNegated, index, h, decide_false, negateIf_false, positive]
    exact congrArg Handle.mk hcode

end Handle

end ModalCalls
