import NetworkFlow.Amount
import NetworkFlow.Loop

/-!
# Cost arithmetic

The engines compute costs, potentials and distances in a `Scalar`. Three kinds
of numbers serve:

* words, whose plain operations must not leave the range and whose checked
  operations refuse to;
* binary floating point, with a relative tolerance for "less than zero";
* the integers themselves (`Scalar.exact`), the arithmetic that the words agree
  with. The checked operations still refuse what leaves the range of a width.

A plain operation on words that leaves the range ends the run. What an engine
computes is therefore said twice: a function gives the result, and beside it
another one lists the operations that lead there (`CostOperation`). `checked` gives
the result only if all of them fit. What stands in the place of a result that does
not fit is never seen.

A caller's cost type is a `Cost`: it says in which scalar the engines compute and
how its values get there and back.
-/

namespace NetworkFlow

/-- A plain operation of the cost arithmetic and what it is applied to. -/
inductive CostOperation (α : Type) where
  | neg (x : α)
  | add (x y : α)
  | sub (x y : α)
  | mul (x y : α)
  | div (x y : α)

namespace CostOperation

variable {w : Width}

/-- What the operation gives for the integers that the words stand for. -/
def exact : CostOperation (Word w) → Int
  | neg x => -x.val
  | add x y => x.val + y.val
  | sub x y => x.val - y.val
  | mul x y => x.val * y.val
  | div x y => x.val.tdiv y.val

/-- The integer fits the width, and nothing is divided by zero. -/
def Fits : CostOperation (Word w) → Prop
  | div x y => y.val ≠ 0 ∧ w.Fits (x.val.tdiv y.val)
  | op => w.Fits op.exact

instance : (op : CostOperation (Word w)) → Decidable op.Fits
  | neg x => inferInstanceAs (Decidable (w.Fits (-x.val)))
  | add x y => inferInstanceAs (Decidable (w.Fits (x.val + y.val)))
  | sub x y => inferInstanceAs (Decidable (w.Fits (x.val - y.val)))
  | mul x y => inferInstanceAs (Decidable (w.Fits (x.val * y.val)))
  | div x y => inferInstanceAs (Decidable (y.val ≠ 0 ∧ w.Fits (x.val.tdiv y.val)))

end CostOperation

/-- The arithmetic of costs inside the engines. -/
class Scalar (α : Type) extends
    Zero α, One α, Add α, Sub α, Neg α, Mul α, Div α, LT α, LE α where
  decLt : DecidableLT α
  decLe : DecidableLE α
  /-- A count, the nearest value if it does not fit. -/
  ofCount : Nat → α
  /-- An amount of flow, the nearest value if it does not fit. -/
  ofAmount : Int → α
  /-- The product, unless it leaves the range. -/
  mul? : α → α → Option α
  /-- The sum, unless it leaves the range. -/
  add? : α → α → Option α
  /-- The epsilon at which cost scaling of costs up to a maximum may stop. -/
  finest : α → α
  /-- A value counts as negative if it is below minus this share of the largest cost. -/
  tolerance : α
  /-- The values are whole numbers. -/
  integral : Bool
  /-- A plain operation stays in the range. -/
  fits : CostOperation α → Bool

namespace Scalar

variable {α : Type} [Scalar α]

instance : DecidableLT α := decLt

instance : DecidableLE α := decLe

/-- The absolute value. -/
def magnitude (x : α) : α := if x < 0 then -x else x

/-- The largest of `start` and the absolute values of a list, incomparable ones left out. -/
def maxMagnitude (start : α) (xs : List α) : α :=
  xs.foldl (fun acc x => if acc < magnitude x then magnitude x else acc) start

/-- The operations that lead to the absolute values of a list. -/
def magnitudeOperations (xs : List α) : List (CostOperation α) :=
  (xs.filter (· < 0)).map .neg

/-- The operations of the steps of a fold. -/
def foldOperations {σ ι : Type} (step : σ → ι → σ) (operations : σ → ι → List (CostOperation α)) :
    σ → List ι → List (CostOperation α)
  | _, [] => []
  | s, x :: xs => operations s x ++ foldOperations step operations (step s x) xs

/-- A result, if all operations that lead to it stay in the range. -/
def checked {β : Type} (operations : List (CostOperation α)) (result : β) :
    Except Interruption β :=
  if operations.all fits then .ok result else .error .overflow

/-- Goes on if all operations stay in the range. -/
def inRange (operations : List (CostOperation α)) : Except Interruption Unit :=
  checked operations ()

theorem checked_eq_ok {β : Type} {operations : List (CostOperation α)} {result b : β} :
    checked operations result = .ok b ↔ (∀ op ∈ operations, fits op = true) ∧ result = b := by
  unfold checked
  split
  · rename_i h
    exact ⟨fun heq => ⟨List.all_eq_true.mp h, Except.ok.inj heq⟩, fun heq => congrArg _ heq.2⟩
  · rename_i h
    exact ⟨nofun, fun heq => absurd (List.all_eq_true.mpr heq.1) h⟩

theorem checked_of_fits {β : Type} {operations : List (CostOperation α)} {result : β}
    (h : ∀ op ∈ operations, fits op = true) : checked operations result = .ok result :=
  checked_eq_ok.mpr ⟨h, rfl⟩

/-- Nothing but an overflow stands in the way of a result. -/
theorem checked_eq_error {β : Type} {operations : List (CostOperation α)} {result : β}
    {why : Interruption} (h : checked operations result = .error why) : why = .overflow := by
  unfold checked at h
  split at h
  · cases h
  · exact (Except.error.inj h).symm

theorem checked_ne_overflow {β : Type} {operations : List (CostOperation α)} {result : β}
    (h : ∀ op ∈ operations, fits op = true) : checked operations result ≠ .error .overflow := by
  simp [checked_of_fits h]

theorem checked_ne_outOfFuel {β : Type} {operations : List (CostOperation α)} {result : β} :
    checked operations result ≠ .error .outOfFuel :=
  fun h => nomatch checked_eq_error h

theorem inRange_eq_ok {operations : List (CostOperation α)} :
    inRange operations = .ok () ↔ ∀ op ∈ operations, fits op = true := by
  simp [inRange, checked_eq_ok]

/-- A computation that goes on only if some operations stay in the range has a result if they do
and the rest has one. -/
theorem inRange_bind_eq_ok {β : Type} {operations : List (CostOperation α)}
    {x : Unit → Except Interruption β} {b : β} :
    inRange operations >>= x = .ok b ↔ (∀ op ∈ operations, fits op = true) ∧ x () = .ok b := by
  rw [← inRange_eq_ok]
  cases inRange operations with
  | error why => exact ⟨nofun, fun h => nomatch h.1⟩
  | ok _ => exact ⟨fun h => ⟨rfl, h⟩, And.right⟩

omit [Scalar α] in
theorem mem_foldOperations {σ ι : Type} {step : σ → ι → σ}
    {operations : σ → ι → List (CostOperation α)} {s : σ} {xs : List ι} {op : CostOperation α} :
    op ∈ foldOperations step operations s xs ↔ ∃ before x after, xs = before ++ x :: after ∧
      op ∈ operations (before.foldl step s) x := by
  induction xs generalizing s with
  | nil => simp [foldOperations]
  | cons x xs ih =>
      rw [foldOperations, List.mem_append, ih]
      constructor
      · rintro (h | ⟨before, y, after, rfl, h⟩)
        · exact ⟨[], x, xs, rfl, h⟩
        · exact ⟨x :: before, y, after, rfl, h⟩
      · rintro ⟨_ | ⟨z, before⟩, y, after, heq, h⟩
        · obtain ⟨rfl, rfl⟩ := List.cons.inj heq
          exact .inl h
        · obtain ⟨rfl, rfl⟩ := List.cons.inj heq
          exact .inr ⟨before, y, after, rfl, h⟩

/-- Words; a plain operation gives a result that fits, a checked one refuses any other. -/
instance (w : Width) : Scalar (Word w) where
  zero := ⟨0, w.fits_zero⟩
  one := ⟨1, w.fits_one⟩
  add a b := .wrap (a.val + b.val)
  sub a b := .wrap (a.val - b.val)
  neg a := .wrap (-a.val)
  mul a b := .wrap (a.val * b.val)
  div a b := .wrap (a.val.tdiv b.val)
  lt a b := a.val < b.val
  le a b := a.val ≤ b.val
  decLt a b := Int.decLt a.val b.val
  decLe a b := Int.decLe a.val b.val
  ofCount n := .clamp n
  ofAmount x := .clamp x
  mul? a b := Word.ofInt? (a.val * b.val)
  add? a b := Word.ofInt? (a.val + b.val)
  finest _ := ⟨1, w.fits_one⟩
  tolerance := ⟨0, w.fits_zero⟩
  integral := true
  fits op := decide op.Fits

/-- Integers with exact operations; the checked operations refuse what does not
fit the width. -/
@[reducible] def exact (w : Width) : Scalar Int where
  zero := 0
  one := 1
  add a b := a + b
  sub a b := a - b
  neg a := -a
  mul a b := a * b
  div a b := a.tdiv b
  lt a b := a < b
  le a b := a ≤ b
  decLt a b := Int.decLt a b
  decLe a b := Int.decLe a b
  ofCount n := n
  ofAmount x := x
  mul? a b := if w.Fits (a * b) then some (a * b) else none
  add? a b := if w.Fits (a + b) then some (a + b) else none
  finest _ := 1
  tolerance := 0
  integral := true
  fits _ := true

/-- Binary floating point; the checked operations refuse what is not finite. -/
instance : Scalar Float where
  zero := 0.0
  one := 1.0
  add a b := a + b
  sub a b := a - b
  neg a := -a
  mul a b := a * b
  div a b := a / b
  lt a b := a < b
  le a b := a ≤ b
  decLt a b := inferInstanceAs (Decidable (a < b))
  decLe a b := inferInstanceAs (Decidable (a ≤ b))
  ofCount n := n.toUInt64.toFloat
  ofAmount x := (Int64.ofInt x).toFloat
  mul? a b := if (a * b).isFinite then some (a * b) else none
  add? a b := if (a + b).isFinite then some (a + b) else none
  finest top := top * 1e-8
  tolerance := 1e-10
  integral := false
  fits _ := true

end Scalar

/-- A caller's cost type. -/
class Cost (α : Type) extends Inhabited α where
  /-- The numbers in which the engines compute. -/
  Wide : Type
  scalar : Scalar Wide
  /-- The cost of an arc for which none is configured. -/
  unit : α
  widen : α → Wide
  /-- The value nearest to a number of the engines. -/
  narrow : Wide → α

namespace Cost

instance {α : Type} [Cost α] : Scalar (Wide α) := scalar

instance (w : Width) : Cost (Word w) where
  Wide := Word w.wider
  scalar := inferInstance
  unit := ⟨1, w.fits_one⟩
  widen x := x.widen
  narrow x := .clamp x.val

instance : Cost Float where
  default := 0.0
  Wide := Float
  scalar := inferInstance
  unit := 1.0
  widen x := x
  narrow x := x

end Cost

end NetworkFlow
