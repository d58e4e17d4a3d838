import NetworkFlow.Proofs.Classification
import NetworkFlow.Proofs.Solver.Protocol

/-!
# The total cost that a solver answers with

The costs of the arcs are added up in the arithmetic of the engines, one arc after the other, and
every product and every sum that leaves its range is refused. What is left is narrowed to the
caller's cost type, and that is not refused: a total that the wider arithmetic can count and the
cost type cannot becomes the nearest value of the type.

So the answer is the exact cost of the reported flows or a refusal if the cost type is as wide as
the arithmetic, and otherwise exactly if the total fits the type or is refused on the way.

## Main results

* `foldlM_addCost_eq_ok`: when a checked sum of products has a value.
* `totalCost_eq_ok`: when there is a total cost.
* `totalCost_exact_iff`: when the answer is exact or refused.
* `loneSolver_clipped`: a total that does not fit is answered with another one.
-/

namespace NetworkFlow

open Finset

variable {w cw v : Width}

/-- The arithmetic of the engines counts all amounts. -/
theorem Width.wider_fits_amount {x : Int} (h : Width.bits64.Fits x) : cw.wider.Fits x := by
  have hhalf : Width.bits64.half ≤ cw.wider.half := by cases cw <;> decide
  obtain ⟨hlo, hhi⟩ := h
  constructor <;> omega

namespace Solver

/-! ## A checked sum of products -/

theorem addCost_eq_ok {sum cost total : Word v} {amount : Int} (hamount : v.Fits amount) :
    addCost sum cost amount = .ok total ↔
      v.Fits (cost.val * amount) ∧ total.val = sum.val + cost.val * amount := by
  have hmul : Scalar.mul? cost (Scalar.ofAmount amount) = Word.ofInt? (cost.val * amount) := by
    show Word.ofInt? (cost.val * (Word.clamp amount : Word v).val) = _
    rw [Word.clamp_of_fits hamount]
  have hadd : ∀ term : Word v, Scalar.add? sum term = Word.ofInt? (sum.val + term.val) :=
    fun _ => rfl
  have hsome : (Scalar.mul? cost (Scalar.ofAmount amount)).bind (Scalar.add? sum) = some total ↔
      v.Fits (cost.val * amount) ∧ total.val = sum.val + cost.val * amount := by
    simp only [Option.bind_eq_some_iff, hmul, hadd, Word.ofInt?_eq_some]
    constructor
    · rintro ⟨term, hterm, htotal⟩
      exact hterm ▸ ⟨term.fits, htotal⟩
    · rintro ⟨hfits, htotal⟩
      exact ⟨⟨_, hfits⟩, rfl, htotal⟩
  rw [← hsome]
  unfold addCost
  cases (Scalar.mul? cost (Scalar.ofAmount amount)).bind (Scalar.add? sum) <;> simp

/-- A checked sum of products has a value exactly if every product and every sum of the first
products, however many, is in range. -/
theorem foldlM_addCost_eq_ok {terms : List (Word v × Int)} {start total : Word v}
    (hamounts : ∀ term ∈ terms, v.Fits term.2) :
    terms.foldlM (fun sum term => addCost sum term.1 term.2) start = .ok total ↔
      (∀ term ∈ terms, v.Fits (term.1.val * term.2)) ∧
        (∀ k ≤ terms.length,
          v.Fits (start.val + ((terms.map fun term => term.1.val * term.2).take k).sum)) ∧
        total.val = start.val + (terms.map fun term => term.1.val * term.2).sum := by
  induction terms generalizing start with
  | nil =>
      have hstart : (∀ k ≤ 0, v.Fits (start.val + (([] : List Int).take k).sum)) := by
        intro k _
        simpa using start.fits
      simp only [List.foldlM_nil, List.map_nil, List.length_nil, List.sum_nil, add_zero]
      constructor
      · rintro ⟨⟩
        exact ⟨by simp, hstart, rfl⟩
      · rintro ⟨-, -, htotal⟩
        rw [Word.ext htotal]
        rfl
  | cons term terms ih =>
      obtain ⟨hamount, hamounts⟩ := List.forall_mem_cons.mp hamounts
      rw [List.foldlM_cons, bind_eq_ok]
      simp only [addCost_eq_ok hamount, ih hamounts, List.forall_mem_cons, List.map_cons,
        List.sum_cons, List.length_cons]
      constructor
      · rintro ⟨next, ⟨hterm, hnext⟩, hterms, hsums, htotal⟩
        rw [hnext] at hsums htotal
        refine ⟨⟨hterm, hterms⟩, fun k hk => ?_, by rw [htotal, add_assoc]⟩
        cases k with
        | zero => simpa using start.fits
        | succ k =>
            rw [List.take_succ_cons, List.sum_cons, ← add_assoc]
            exact hsums k (by omega)
      · rintro ⟨⟨hterm, hterms⟩, hsums, htotal⟩
        have hnext : v.Fits (start.val + term.1.val * term.2) := by
          simpa using hsums 1 (by omega)
        refine ⟨⟨_, hnext⟩, ⟨hterm, rfl⟩, hterms, fun k hk => ?_, by rw [htotal, add_assoc]⟩
        have := hsums (k + 1) (by omega)
        rwa [List.take_succ_cons, List.sum_cons, ← add_assoc] at this

/-- The same of products that are numbered. -/
theorem foldlM_addCost_ofFn_eq_ok {m : Nat} {cost : Fin m → Word v} {amount : Fin m → Int}
    {total : Word v} (hamounts : ∀ a, v.Fits (amount a)) :
    (List.ofFn fun a => (cost a, amount a)).foldlM (fun sum term => addCost sum term.1 term.2) 0 =
        .ok total ↔
      (∀ a, v.Fits ((cost a).val * amount a)) ∧
        (∀ k ≤ m, v.Fits (∑ a : Fin m with a.val < k, (cost a).val * amount a)) ∧
        total.val = ∑ a, (cost a).val * amount a := by
  have hzero : (0 : Word v).val = 0 := rfl
  rw [foldlM_addCost_eq_ok (by simpa using hamounts)]
  simp only [List.forall_mem_ofFn_iff, List.length_ofFn, List.map_ofFn, Function.comp_def,
    List.sum_take_ofFn, List.sum_ofFn, hzero, zero_add]

end Solver

namespace Configuration

/-- What flows cost. -/
def flowCost (c : Configuration w (Word cw)) (flows : Fin c.arcs → Word w) : Int :=
  ∑ a : Fin c.arcs, (c.costAt a : Word cw).val * (flows a).val

/-- The cost of each arc, and of the first arcs together, however many, is in the range in which the
engines compute. -/
@[mk_iff costCounted_iff]
structure CostCounted (c : Configuration w (Word cw)) (flows : Fin c.arcs → Word w) : Prop where
  term : ∀ a : Fin c.arcs, cw.wider.Fits ((c.costAt a : Word cw).val * (flows a).val)
  sum : ∀ k ≤ c.arcs,
    cw.wider.Fits (∑ a : Fin c.arcs with a.val < k, (c.costAt a : Word cw).val * (flows a).val)

/-- The first arcs, if they are all arcs. -/
theorem CostCounted.fits_flowCost {c : Configuration w (Word cw)} {flows : Fin c.arcs → Word w}
    (h : c.CostCounted flows) : cw.wider.Fits (c.flowCost flows) := by
  have hall : (univ.filter fun a : Fin c.arcs => a.val < c.arcs) = univ :=
    filter_true_of_mem fun a _ => a.isLt
  have hsum := h.sum c.arcs le_rfl
  rwa [hall] at hsum

end Configuration

namespace Solver

/-! ## The total cost -/

section Optimal

variable {s : Solver w (Word cw)} {flows : Fin s.config.arcs → Word w}
  {potentials : Array (Word cw)}

/-- There is a total cost exactly if all costs on the way to it are counted; it is then the value of
the cost type that is nearest to the cost of the flows. -/
theorem totalCost_eq_ok (hw : w ≠ .bits128)
    (hsolution : s.solution = some (.optimal (Array.ofFn flows) potentials)) {x : Word cw} :
    s.totalCost = .ok x ↔ s.config.CostCounted flows ∧ x = .clamp (s.config.flowCost flows) := by
  let cost (a : Fin s.config.arcs) : Word cw.wider := (s.config.costAt a : Word cw).widen
  have hzip : (Array.ofFn flows).toList.zipIdx.map
      (fun entry => ((s.config.costAt entry.2 : Word cw).widen, Amount.ofWord entry.1)) =
        List.ofFn fun a => (cost a, Amount.ofWord (flows a)) := by
    apply List.ext_getElem (by simp)
    intro i _ _
    simp [cost]
  have htotal : s.totalCost = (List.ofFn fun a => (cost a, Amount.ofWord (flows a))).foldlM
      (fun sum term => addCost sum term.1 term.2) (0 : Word cw.wider) >>= fun total =>
        .ok (.clamp total.val) := by
    unfold totalCost optimal
    rw [hsolution, ← hzip, List.foldlM_map]
    rfl
  have hterm : ∀ a, (cost a).val * Amount.ofWord (flows a) =
      (s.config.costAt a : Word cw).val * (flows a).val := by
    intro a
    rw [Amount.ofWord_eq hw]
    rfl
  have hamounts : ∀ a, cw.wider.Fits (Amount.ofWord (flows a)) :=
    fun a => Width.wider_fits_amount (reportable_ofWord (flows a)).2
  rw [htotal, bind_eq_ok, Configuration.costCounted_iff]
  simp only [foldlM_addCost_ofFn_eq_ok hamounts, hterm]
  constructor
  · rintro ⟨total, ⟨hterms, hsums, hvalue⟩, hclamp⟩
    rw [hvalue] at hclamp
    cases hclamp
    exact ⟨⟨hterms, hsums⟩, rfl⟩
  · rintro ⟨⟨hterms, hsums⟩, rfl⟩
    exact ⟨⟨_, Configuration.CostCounted.fits_flowCost ⟨hterms, hsums⟩⟩, ⟨hterms, hsums, rfl⟩, rfl⟩

/-- An array of a known size is the table of its elements. -/
theorem exists_ofFn {β : Type} {n : Nat} {xs : Array β} (h : xs.size = n) :
    ∃ f : Fin n → β, xs = Array.ofFn f := by
  subst h
  exact ⟨fun i => xs[i], by simp⟩

/-- Without a total cost, there is an overflow. -/
theorem totalCost_eq_error (hw : w ≠ .bits128)
    (hsolution : s.solution = some (.optimal (Array.ofFn flows) potentials)) :
    s.totalCost = .error .arithmeticOverflow ↔ ¬ s.config.CostCounted flows := by
  constructor
  · intro herror hcounted
    rw [(totalCost_eq_ok hw hsolution).mpr ⟨hcounted, rfl⟩] at herror
    cases herror
  · intro hcounted
    cases hanswer : s.totalCost with
    | ok x => exact absurd ((totalCost_eq_ok hw hsolution).mp hanswer).1 hcounted
    | error cause => rw [totalCost_of_optimal hsolution hanswer]

/-- The total cost is the given one or refused, and refused if the type does not hold it. -/
structure CostExact (s : Solver w (Word cw)) (cost : Int) : Prop where
  val_eq : ∀ x, s.totalCost = .ok x → x.val = cost
  refused : ¬ cw.Fits cost → s.totalCost = .error .arithmeticOverflow

/-- Nothing but the narrowing makes another cost of the exact one. -/
theorem costExact_iff (hw : w ≠ .bits128)
    (hsolution : s.solution = some (.optimal (Array.ofFn flows) potentials)) :
    s.CostExact (s.config.flowCost flows) ↔
      (s.config.CostCounted flows → cw.Fits (s.config.flowCost flows)) := by
  constructor
  · intro h hcounted
    by_contra hfits
    exact (totalCost_eq_error hw hsolution).mp (h.refused hfits) hcounted
  · intro h
    refine ⟨fun x hx => ?_, fun hfits => (totalCost_eq_error hw hsolution).mpr (hfits ∘ h)⟩
    obtain ⟨hcounted, rfl⟩ := (totalCost_eq_ok hw hsolution).mp hx
    rw [Word.clamp_of_fits (h hcounted)]

end Optimal

/-- For flows of 32 or 64 bits, ask a solver for the total cost, after whatever other requests, while
the solution of its last run is an optimal one.

* There is an answer exactly if every cost of an arc and every cost of the first arcs together, added
  up arc after arc, is in the range of the wider arithmetic. It is the value of the cost type that is
  nearest to the exact cost of the reported flows; without an answer, the overflow is reported.
* So the answer is exact or the overflow is reported, also if the exact cost does not fit, if and only
  if the exact cost fits once it is counted. This is so for the widest cost type. -/
theorem totalCost_exact_iff (hw : w ≠ .bits128) {method : Method} {g : Digraph}
    {requests : List (Request w (Word cw))} {reported : Array (Word w)}
    {potentials : Array (Word cw)}
    (h : (made method g requests).solution = some (.optimal reported potentials)) :
    let s := made method g requests
    ∃ flows : Fin s.config.arcs → Word w, reported = Array.ofFn flows ∧
      (∀ a : Fin s.config.arcs, s.flow ⟨s.config.graph.id, a⟩ = .ok (flows a)) ∧
      (∀ x, s.totalCost = .ok x ↔
        s.config.CostCounted flows ∧ x = .clamp (s.config.flowCost flows)) ∧
      (s.totalCost = .error .arithmeticOverflow ↔ ¬ s.config.CostCounted flows) ∧
      (s.CostExact (s.config.flowCost flows) ↔
        (s.config.CostCounted flows → cw.Fits (s.config.flowCost flows))) ∧
      (cw = .bits128 → s.CostExact (s.config.flowCost flows)) := by
  intro s
  obtain ⟨fuel, before, after, hlast⟩ := solution_iff_lastRun.mp h
  have hconfig : s.config = asked g (accepted g requests) :=
    (configured_afterAll method g requests).config
  have hsize : reported.size = s.config.arcs := hconfig ▸ (Configuration.sizes hlast.solves).1
  obtain ⟨flows, rfl⟩ := exists_ofFn hsize
  refine ⟨flows, rfl, fun a => ?_, fun x => totalCost_eq_ok hw h, totalCost_eq_error hw h,
    costExact_iff hw h, fun hwidest => (costExact_iff hw h).mpr fun hcounted => ?_⟩
  · rw [flow_of_optimal h ⟨rfl, a.isLt⟩ (by simp), Array.getElem_ofFn]
  · subst hwidest
    exact hcounted.fits_flowCost

/-- A solver that was asked to send two units over an arc at a cost for each, and to run. -/
def loneSolver (cost : Word cw) : Solver .bits64 (Word cw) :=
  made (.capacityScaling 4)
    { id := ⟨0⟩, nodeCount := 2, ends := #[⟨0, 1⟩], below := Configuration.below_loneArc }
    [.change (.cost { graph := ⟨0⟩, values := #[cost], fill := default }),
      .change (.upper { graph := ⟨0⟩, values := #[.clamp 2], fill := default }),
      .change (.supply { graph := ⟨0⟩, values := #[.clamp 2, .clamp (-2)], fill := default }),
      .run 9]

/-- At a 32-bit cost of three the cost of the two units is exact. -/
theorem totalCost_exact_iff_loneSolver :
    (loneSolver (.clamp 3 : Word .bits32)).solution =
        some (.optimal #[.clamp 2] #[.clamp (-3), .clamp 0]) ∧
      (loneSolver (.clamp 3 : Word .bits32)).CostExact 6 := by
  have hsolution : (loneSolver (.clamp 3 : Word .bits32)).solution =
      some (.optimal #[.clamp 2] #[.clamp (-3), .clamp 0]) := by
    with_unfolding_all rfl
  refine ⟨hsolution, ?_⟩
  obtain ⟨flows, hreported, -, -, -, hiff, -⟩ := totalCost_exact_iff (by decide) hsolution
  have hflows : flows = fun _ => .clamp 2 := by
    apply List.ofFn_injective
    rw [← Array.toList_ofFn, ← hreported]
    with_unfolding_all rfl
  have hcost : (loneSolver (.clamp 3 : Word .bits32)).config.flowCost flows = 6 := by
    rw [hflows]
    with_unfolding_all rfl
  rw [← hcost]
  refine hiff.mpr fun _ => ?_
  show Width.bits32.Fits ((loneSolver (.clamp 3 : Word .bits32)).config.flowCost flows)
  rw [hcost]
  decide

/-- At the largest 32-bit cost the answer is what one of the two units costs alone. -/
theorem loneSolver_clipped :
    (loneSolver (.largest .bits32)).solution =
        some (.optimal #[.clamp 2] #[.clamp (-2147483647), .clamp 0]) ∧
      (loneSolver (.largest .bits32)).config.flowCost (fun _ => .clamp 2) = 4294967294 ∧
      (loneSolver (.largest .bits32)).totalCost = .ok (.largest .bits32) ∧
      ¬ (loneSolver (.largest .bits32)).CostExact 4294967294 := by
  have htotal : (loneSolver (.largest .bits32)).totalCost = .ok (.largest .bits32) := by
    with_unfolding_all rfl
  refine ⟨by with_unfolding_all rfl, by with_unfolding_all rfl, htotal, fun h => ?_⟩
  exact absurd (h.val_eq _ htotal) (by decide)

end Solver

end NetworkFlow
