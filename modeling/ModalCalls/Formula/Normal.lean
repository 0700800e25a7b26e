import ModalCalls.Formula.Basic

/-!
# Normal forms of formulas

A formula is brought into a form without branching operators and with negations on atoms and references only.

* `Formula.expand` replaces every branching operator by a fixpoint over a fresh name.
* `Formula.normal` expands first and then pushes negations inwards by duality.

The two are done in this order because the expansion of `A[p W q]` is a negation, and because `pushNeg` has
nothing to say about a branching operator.
-/

namespace ModalCalls

namespace Formula

/-! ## Fresh names

Fresh names are `#Z0`, `#Z1`, and so on, in the order in which operators are finished: operands first, left before
right.  Names that occur in the input are skipped, so no reference of the input is captured.
-/

/-- The name with a given number. -/
def freshName (k : Nat) : String :=
  "#Z" ++ toString k

/-- The first number from `k` on whose name is not taken, looking at `tries` of them.  There are
not more taken names than entries in the list, so as many tries as entries are enough. -/
def freshNumber (taken : List String) : Nat → Nat → Nat
  | 0, k => k
  | tries + 1, k =>
    if taken.contains (freshName k) then freshNumber taken tries (k + 1) else k

/-- A fresh name, and the number to go on from. -/
def fresh (taken : List String) (k : Nat) : String × Nat :=
  let n := freshNumber taken taken.length k
  (freshName n, n + 1)

/-! ## The fixpoint of each operator

```
AF p     = mu Z.(p || (<>true && []Z))          EF p     = mu Z.(p || <>Z)
AG p     = nu Z.(p && []Z)                      EG p     = nu Z.(p && (<>Z || []false))
A[p U q] = mu Z.(q || (p && (<>true && []Z)))   E[p U q] = mu Z.(q || (p && <>Z))
A[p W q] = !E[!q U (!p && !q)]                  E[p W q] = E[p U q] || EG p
```

Paths are maximal, so a deadlock ends one.  The conjunct `<>true` keeps `AF` and `A[U]` from holding there for want
of a successor, and the disjunct `[]false` lets `EG` hold on a path that ends.
-/

/-- Some successor exists and all satisfy the fixpoint. -/
def allNext (z : String) : Formula :=
  conj (dia none top) (box none (ref z))

/-- `AF p` over the name `z`. -/
def afFix (z : String) (p : Formula) : Formula :=
  mu z (disj p (allNext z))

/-- `AG p` over the name `z`. -/
def agFix (z : String) (p : Formula) : Formula :=
  nu z (conj p (box none (ref z)))

/-- `A[p U q]` over the name `z`. -/
def auFix (z : String) (p q : Formula) : Formula :=
  mu z (disj q (conj p (allNext z)))

/-- `EF p` over the name `z`. -/
def efFix (z : String) (p : Formula) : Formula :=
  mu z (disj p (dia none (ref z)))

/-- `EG p` over the name `z`. -/
def egFix (z : String) (p : Formula) : Formula :=
  nu z (conj p (disj (dia none (ref z)) (box none bot)))

/-- `E[p U q]` over the name `z`. -/
def euFix (z : String) (p q : Formula) : Formula :=
  mu z (disj q (conj p (dia none (ref z))))

/-! ## The expansion

The number of the next fresh name is handed from operand to operand, so that the names are those of one walk from
left to right.
-/

/-- The expansion with the names taken and the number of the next fresh name; it returns the number
to go on from.  In the two weak operators an operand that is needed twice is expanded twice, with
fresh names of its own each time. -/
def expandFrom (taken : List String) : Formula → Nat → Formula × Nat
  | top, k => (top, k)
  | bot, k => (bot, k)
  | atom p, k => (atom p, k)
  | ref x, k => (ref x, k)
  | neg f, k =>
    let r := expandFrom taken f k
    (neg r.1, r.2)
  | conj f g, k =>
    let r₁ := expandFrom taken f k
    let r₂ := expandFrom taken g r₁.2
    (conj r₁.1 r₂.1, r₂.2)
  | disj f g, k =>
    let r₁ := expandFrom taken f k
    let r₂ := expandFrom taken g r₁.2
    (disj r₁.1 r₂.1, r₂.2)
  | box a f, k =>
    let r := expandFrom taken f k
    (box a r.1, r.2)
  | dia a f, k =>
    let r := expandFrom taken f k
    (dia a r.1, r.2)
  | mu x f, k =>
    let r := expandFrom taken f k
    (mu x r.1, r.2)
  | nu x f, k =>
    let r := expandFrom taken f k
    (nu x r.1, r.2)
  | af p, k =>
    let r := expandFrom taken p k
    let z := fresh taken r.2
    (afFix z.1 r.1, z.2)
  | ag p, k =>
    let r := expandFrom taken p k
    let z := fresh taken r.2
    (agFix z.1 r.1, z.2)
  | au p q, k =>
    let r₁ := expandFrom taken p k
    let r₂ := expandFrom taken q r₁.2
    let z := fresh taken r₂.2
    (auFix z.1 r₁.1 r₂.1, z.2)
  | aw p q, k =>
    let r₁ := expandFrom taken q k
    let r₂ := expandFrom taken p r₁.2
    let r₃ := expandFrom taken q r₂.2
    let z := fresh taken r₃.2
    (neg (euFix z.1 (neg r₁.1) (conj (neg r₂.1) (neg r₃.1))), z.2)
  | ef p, k =>
    let r := expandFrom taken p k
    let z := fresh taken r.2
    (efFix z.1 r.1, z.2)
  | eg p, k =>
    let r := expandFrom taken p k
    let z := fresh taken r.2
    (egFix z.1 r.1, z.2)
  | eu p q, k =>
    let r₁ := expandFrom taken p k
    let r₂ := expandFrom taken q r₁.2
    let z := fresh taken r₂.2
    (euFix z.1 r₁.1 r₂.1, z.2)
  | ew p q, k =>
    let r₁ := expandFrom taken p k
    let r₂ := expandFrom taken q r₁.2
    let z₁ := fresh taken r₂.2
    let r₃ := expandFrom taken p z₁.2
    let z₂ := fresh taken r₃.2
    (disj (euFix z₁.1 r₁.1 r₂.1) (egFix z₂.1 r₃.1), z₂.2)

/-- **The formula without branching operators.** -/
def expand (f : Formula) : Formula :=
  (expandFrom f.names f 0).1

/-! ## Negation normal form

Negations are pushed through the operators by duality until they stand on atoms and references:

```
!true = false     !(f && g) = !f || !g     ![a]f = <a>!f     !mu X.f = nu X.!f[!X/X]
!false = true     !(f || g) = !f && !g     !<a>f = [a]!f     !nu X.f = mu X.!f[!X/X]
```

The substitution `[!X/X]` is never carried out.  Instead the scope remembers for each name whether its fixpoint was
turned into its dual, and a reference ends up negated exactly if the negations that apply to it and the turn of its
fixpoint disagree.
-/

/-- For each name in scope, innermost first, whether its fixpoint was turned into its dual. -/
abbrev Turned := List (String × Bool)

/-- A formula under a negation if asked for. -/
def negIf (negate : Bool) (f : Formula) : Formula :=
  if negate then neg f else f

/-- Negation normal form of a formula without branching operators, or of its negation.  Branching
operators are left as they are. -/
def pushNeg : Bool → Turned → Formula → Formula
  | n, _, top => if n then bot else top
  | n, _, bot => if n then top else bot
  | n, _, atom p => negIf n (atom p)
  | n, σ, neg f => pushNeg (!n) σ f
  | n, σ, conj f g =>
    if n then disj (pushNeg n σ f) (pushNeg n σ g) else conj (pushNeg n σ f) (pushNeg n σ g)
  | n, σ, disj f g =>
    if n then conj (pushNeg n σ f) (pushNeg n σ g) else disj (pushNeg n σ f) (pushNeg n σ g)
  | n, σ, box a f => if n then dia a (pushNeg n σ f) else box a (pushNeg n σ f)
  | n, σ, dia a f => if n then box a (pushNeg n σ f) else dia a (pushNeg n σ f)
  | n, σ, mu x f =>
    if n then nu x (pushNeg n ((x, n) :: σ) f) else mu x (pushNeg n ((x, n) :: σ) f)
  | n, σ, nu x f =>
    if n then mu x (pushNeg n ((x, n) :: σ) f) else nu x (pushNeg n ((x, n) :: σ) f)
  | n, σ, ref x => negIf (n != (σ.lookup x).getD false) (ref x)
  | _, _, af f => af f
  | _, _, ag f => ag f
  | _, _, au f g => au f g
  | _, _, aw f g => aw f g
  | _, _, ef f => ef f
  | _, _, eg f => eg f
  | _, _, eu f g => eu f g
  | _, _, ew f g => ew f g

/-- **Negation normal form.**  Branching operators are expanded first. -/
def normal (f : Formula) : Formula :=
  pushNeg false [] f.expand

end Formula

end ModalCalls
