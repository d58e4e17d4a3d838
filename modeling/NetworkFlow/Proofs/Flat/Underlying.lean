import NetworkFlow.Flat.Perform
import NetworkFlow.Proofs.Registry.Counts

/-!
# What the operations of the flat surface stand for

A call of the flat surface asks the registry for something, and replies with numbers whatever the
registry answers. What it asks is a call of the registry's own (`Call.underlying`), made with what the
numbers stand for: a number without sign is a handle, a code is a place in a list (`coded`), and a
negative number is an index that no graph has (`GraphFamily.named`).

The surface adds little to that. It refuses what it cannot tell, the number of a node or an arc that
does not fit 32 bits (`Shape.Fits`), and tells the rest in a way that depends on the operation only
through what is asked for (`Shape`).

## Main results

* `perform_eq`: a call concludes what it asks, in one way for all operations.
* `run_answer_ok`, `run_answer_refused`: what is reported and replied, by how the action ends.
* `orderly_underlying`: the action reports no warning, returns no handle that is zero, and comes to an
  end unless it is a run.
-/

namespace NetworkFlow.Flat

/-- What an operation is asked for. -/
inductive Shape where
  | nothing
  | status
  | handle
  /-- The number of a node or arc. -/
  | number
  | value (type : ValueType)
  /-- An amount of flow. -/
  | amount
  | verdict
  deriving DecidableEq, Repr

namespace Shape

/-- What the registry answers if it does not refuse. -/
@[reducible] def Result : Shape → Type
  | nothing => Unit
  | status => Unit
  | handle => Handle
  | number => Nat
  | value type => type.Value
  | amount => Int
  | verdict => Verdict

/-- The reply that tells what the registry answered. -/
def accepted : (shape : Shape) → shape.Result → Reply
  | nothing, _ => .nothing
  | status, _ => .status 0
  | handle, h => .handle h.toRaw
  | number, index => .number index
  | value type, x => .value type x
  | amount, x => .amount x
  | verdict, v => .status v.code

/-- The reply that tells that the registry refused. -/
def refused : Shape → Error → Reply
  | nothing, _ => .nothing
  | status, cause => .status (code cause)
  | handle, _ => .handle 0
  | number, _ => .number 0
  | value type, _ => .value type type.zero
  | amount, _ => .amount 0
  | verdict, cause => .status (code cause)

/-- What is never answered is a handle that is written as zero. -/
def Returns : (shape : Shape) → shape.Result → Prop
  | handle, h => h.toRaw ≠ 0
  | _, _ => True

/-- The answer can be told: numbers of nodes and arcs are told with 32 bits. -/
def Fits : (shape : Shape) → shape.Result → Prop
  | number, index => Width.bits32.Fits index
  | _, _ => True

instance : (shape : Shape) → (a : shape.Result) → Decidable (shape.Fits a)
  | number, index => inferInstanceAs (Decidable (Width.bits32.Fits index))
  | nothing, _ | status, _ | handle, _ | value _, _ | amount, _ | verdict, _ => .isTrue trivial

/-- The answer, if it can be told. -/
def told (shape : Shape) (a : shape.Result) : Except Error shape.Result :=
  if shape.Fits a then .ok a else .error .indexOutOfRange

theorem told_of_fits {shape : Shape} {a : shape.Result} (h : shape.Fits a) : shape.told a = .ok a :=
  if_pos h

theorem told_of_not_fits {shape : Shape} {a : shape.Result} (h : ¬ shape.Fits a) :
    shape.told a = .error .indexOutOfRange := if_neg h

end Shape

/-- What an operation is asked for. -/
def Operation.shape : Operation → Shape
  | deleteObject | destruct _ => .nothing
  | newListDigraph | addNode | addArc | newStaticDigraph | newPairList | newMap _ | newSolver _ =>
      .handle
  | build | pushPair | mapSet _ | attach _ => .status
  | numberOf => .number
  | mapGet family => .value family.values
  | run => .verdict
  | flow _ => .amount

/-! ## What is asked -/

/-- What a code stands for: its place in a list. -/
def coded {α : Type} (all : List α) (code : Int) : Option α :=
  if 0 ≤ code then all[code.toNat]? else none

/-- What the codes that a solver is made of stand for. -/
def decoded (algorithm flowType costType : Int) : Option (Algorithm × ValueType × ValueType) := do
  return (← coded Algorithm.all algorithm, ← coded ValueType.all flowType,
    ← coded ValueType.all costType)

/-- The node or arc that an argument stands for. A negative number stands for the largest index that
there is. -/
def GraphFamily.named : (family : GraphFamily) → family.key.Value → KeyRef
  | list, raw => .handle (.ofRaw raw)
  | static, i => .index (if 0 ≤ i.val then i.val.toNat else unsignedBound - 1)

/-- The action that asks a registry for something and leaves it as it is. -/
def ofQuery {α : Type} (query : Registry → Except Error α) : Action Registry α :=
  fun r => (.ofExcept (query r), r)

theorem run_ofQuery {α : Type} (query : Registry → Except Error α) (r : Registry) :
    (ofQuery query).run r = (.ofExcept (query r), r) := rfl

/-- What follows a query and changes nothing is a part of the query. -/
theorem ofQuery_bind {α β : Type} (query : Registry → Except Error α) (f : α → Except Error β) :
    (ofQuery query >>= fun a => .ofLogged (.ofExcept (f a))) = ofQuery fun r => query r >>= f := by
  funext r
  show (ofQuery query >>= fun a => .ofLogged (.ofExcept (f a)) : Action Registry β).run r =
    (.ofExcept (query r >>= f), r)
  rw [Action.run_bind, run_ofQuery]
  cases query r <;> rfl

/-- Makes a solver of what its codes stand for. -/
def newDecoded (graph : Handle) :
    Option (Algorithm × ValueType × ValueType) → Action Registry Handle
  | some (algorithm, flowType, costType) => Registry.newSolver graph algorithm flowType costType
  | none => Action.refuse .kindMismatch

/-- What an operation asks of the registry. -/
def underlyingOn (fuel : Nat) (op : Operation) (arguments : Arguments op.parameters) :
    Action Registry op.shape.Result :=
  match op, arguments with
  | .deleteObject, (object, ()) => Registry.deleteObject (.ofRaw object)
  | .destruct destructor, (object, ()) => Registry.destruct (.ofRaw object) destructor.kind
  | .newListDigraph, () => Registry.newListDigraph
  | .addNode, (graph, ()) => Registry.addNode (.ofRaw graph)
  | .addArc, (graph, tail, head, ()) =>
      Registry.addArc (.ofRaw graph) (.handle (.ofRaw tail)) (.handle (.ofRaw head))
  | .numberOf, (item, ()) => ofQuery (·.indexOf (.ofRaw item))
  | .newStaticDigraph, () => Registry.newStaticDigraph
  | .build, (graph, nodes, pairs, ()) =>
      Registry.buildStatic (.ofRaw graph) nodes.val (.ofRaw pairs)
  | .newPairList, () => Registry.newPairList
  | .pushPair, (list, first, second, ()) => Registry.pushPair (.ofRaw list) first.val second.val
  | .newMap family, (graph, ()) => Registry.newMap family.keys (.ofRaw graph) family.values
  | .mapGet family, (map, key, ()) =>
      ofQuery (·.mapGet family.keys family.values (.ofRaw map) (family.graph.named key))
  | .mapSet family, (map, key, value, ()) =>
      Registry.mapSet family.keys family.values (.ofRaw map) (family.graph.named key) value
  | .newSolver _, (graph, algorithm, flowType, costType, ()) =>
      newDecoded (.ofRaw graph) (decoded algorithm.val flowType.val costType.val)
  | .attach role, (solver, map, ()) => Registry.attach (.ofRaw solver) role (.ofRaw map)
  | .run, (solver, ()) => Registry.run fuel (.ofRaw solver)
  | .flow family, (solver, arc, ()) => ofQuery (·.flow (.ofRaw solver) (family.named arc))

/-- What a call asks of the registry. -/
def Call.underlying (fuel : Nat) (call : Call) : Action Registry call.operation.shape.Result :=
  underlyingOn fuel call.operation call.arguments

/-! ## What the surface adds -/

/-- What a call asks of the registry, which is refused if the answer cannot be told. -/
def Call.asked (fuel : Nat) (call : Call) : Action Registry call.operation.shape.Result :=
  call.underlying fuel >>= fun a => .ofLogged (.ofExcept (call.operation.shape.told a))

section Codes

/-- What stands in a list of three is found by comparing the code with each place. -/
theorem coded_three {α β : Type} (x y z : α) (code : Int) (none : β) (some : α → β) :
    (coded [x, y, z] code).elim none some =
      if code = 0 then some x else if code = 1 then some y else if code = 2 then some z else none := by
  unfold coded
  split_ifs with hpos h0 h1 h2
  · rw [h0]
    rfl
  · rw [h1]
    rfl
  · rw [h2]
    rfl
  · rw [List.getElem?_eq_none (by simp only [List.length_cons, List.length_nil]; omega)]
    rfl
  all_goals first | omega | rfl

theorem algorithmOfCode_eq (code : Int) :
    algorithmOfCode code = (coded Algorithm.all code).elim (.error .kindMismatch) .ok :=
  (coded_three _ _ _ code _ _).symm

theorem ofCode_eq (code : Int) :
    ValueType.ofCode code = (coded ValueType.all code).elim (.error .kindMismatch) .ok :=
  (coded_three _ _ _ code _ _).symm

end Codes

theorem GraphFamily.keyRef_eq (family : GraphFamily) (raw : family.key.Value) :
    family.keyRef raw = family.named raw := by
  cases family with
  | list => rfl
  | static =>
      have hindex : indexOfSigned raw.val =
          if 0 ≤ raw.val then raw.val.toNat else unsignedBound - 1 := by
        unfold indexOfSigned
        split_ifs <;> first | rfl | omega
      exact congrArg KeyRef.index hindex

theorem look_eq {α : Type} (query : Registry → Except Error α) : look query = ofQuery query := by
  funext r
  show (look query).run r = (.ofExcept (query r), r)
  unfold look
  rw [Action.run_get_bind]
  cases query r <;> rfl

theorem fits_of_ne_numberOf {op : Operation} (h : op ≠ .numberOf) (a : op.shape.Result) :
    op.shape.Fits a := by
  cases op with
  | numberOf => exact (h rfl).elim
  | _ => trivial

/-- Nothing is refused of what is no number of a node or arc. -/
theorem asked_eq_underlying {fuel : Nat} {call : Call} (h : call.operation ≠ .numberOf) :
    call.asked fuel = call.underlying fuel := by
  funext r
  show (call.asked fuel).run r = (call.underlying fuel).run r
  unfold Call.asked
  rw [Action.run_bind]
  rcases (call.underlying fuel).run r with ⟨⟨events, fault | a⟩, r'⟩
  · rfl
  · simp only [Shape.told_of_fits (fits_of_ne_numberOf h a)]
    simp [Logged.ofExcept, Logged.ofValue]

/-- The number of a node or arc is looked up, and refused if it cannot be told. -/
theorem asked_numberOf (fuel : Nat) (item : UInt64) :
    (⟨.numberOf, (item, ())⟩ : Call).asked fuel = look (smallIndex · (.ofRaw item)) :=
  (ofQuery_bind (·.indexOf (.ofRaw item)) Shape.number.told).trans (look_eq _).symm

theorem newSolver_eq (graph : UInt64) (algorithm flowType costType : Int) :
    newSolver graph algorithm flowType costType =
      newDecoded (.ofRaw graph) (decoded algorithm flowType costType) := by
  unfold newSolver decoded
  rw [algorithmOfCode_eq, ofCode_eq, ofCode_eq]
  cases coded Algorithm.all algorithm with
  | none => rfl
  | some algorithm =>
      cases coded ValueType.all flowType with
      | none => rfl
      | some flowType => cases coded ValueType.all costType <;> rfl

/-- Every operation concludes what it asks in the way of its shape. -/
theorem perform_eq (fuel : Nat) (call : Call) :
    perform fuel call = answer call.operation.name (call.asked fuel)
      call.operation.shape.accepted call.operation.shape.refused := by
  obtain ⟨op, arguments⟩ := call
  cases op with
  | numberOf =>
      rw [asked_numberOf]
      rfl
  | newSolver family =>
      rw [asked_eq_underlying (by simp)]
      show handleReply _ (newSolver _ _ _ _) = _
      rw [newSolver_eq]
      rfl
  | mapGet family =>
      rw [asked_eq_underlying (by simp)]
      show answer _ (look _) _ _ = answer _ (ofQuery _) _ _
      rw [look_eq]
      simp only [GraphFamily.keyRef_eq]
      rfl
  | mapSet family =>
      rw [asked_eq_underlying (by simp)]
      show statusReply _ (Registry.mapSet _ _ _ _ _) = _
      rw [GraphFamily.keyRef_eq]
      rfl
  | flow family =>
      rw [asked_eq_underlying (by simp)]
      show answer _ (look _) _ _ = answer _ (ofQuery _) _ _
      rw [look_eq]
      simp only [GraphFamily.keyRef_eq]
      rfl
  | _ =>
      rw [asked_eq_underlying (by simp)]
      rfl

section Answer

variable {α : Type} {name : String} {x : Action Registry α} {onValue : α → Reply}
  {onRefusal : Error → Reply} {r : Registry}

theorem run_answer_ok {a : α} (h : (x.run r).1.outcome = .ok a) :
    (answer name x onValue onRefusal).run r =
      (⟨(x.run r).1.events, .ok (onValue a)⟩, (x.run r).2) := by
  rcases hrun : x.run r with ⟨⟨events, outcome⟩, r'⟩
  rw [hrun] at h
  cases h
  have hx : x r = (⟨events, .ok a⟩, r') := hrun
  have hanswer : (answer name x onValue onRefusal).run r = (⟨events ++ [], .ok (onValue a)⟩, r') := by
    simp only [answer, Action.run, Action.conclude, hx]
    rfl
  rw [hanswer, List.append_nil]

/-- A refusal is reported after all else, and the caller gets a reply. -/
theorem run_answer_refused {cause : Error} (h : (x.run r).1.outcome = .error (.refused cause)) :
    (answer name x onValue onRefusal).run r =
      (⟨(x.run r).1.events ++ [.refused name cause], .ok (onRefusal cause)⟩, (x.run r).2) := by
  rcases hrun : x.run r with ⟨⟨events, outcome⟩, r'⟩
  rw [hrun] at h
  cases h
  have hx : x r = (⟨events, .error (.refused cause)⟩, r') := hrun
  simp only [answer, Action.run, Action.conclude, hx]
  rfl

theorem run_answer_interrupted {why : Interruption}
    (h : (x.run r).1.outcome = .error (.interrupted why)) :
    (answer name x onValue onRefusal).run r =
      (⟨(x.run r).1.events, .error (.interrupted why)⟩, (x.run r).2) := by
  rcases hrun : x.run r with ⟨⟨events, outcome⟩, r'⟩
  rw [hrun] at h
  cases h
  have hx : x r = (⟨events, .error (.interrupted why)⟩, r') := hrun
  simp only [answer, Action.run, Action.conclude, hx]

/-- Nothing is changed but by the action. -/
theorem run_answer_snd : ((answer name x onValue onRefusal).run r).2 = (x.run r).2 := by
  cases h : (x.run r).1.outcome with
  | ok a => rw [run_answer_ok h]
  | error fault =>
      cases fault with
      | refused cause => rw [run_answer_refused h]
      | interrupted why => rw [run_answer_interrupted h]

end Answer

/-! ## How calls end -/

section Orderly

open NetworkFlow.Action

variable {bound : Nat} {r : Registry}

theorem orderly_ofQuery {α : Type} {I : Registry → Prop} (hr : I r)
    (query : Registry → Except Error α) :
    Orderly I (fun _ => True) False (ofQuery query) r :=
  ⟨hr, Logged.orderly_ofExcept _, fun _ _ => trivial⟩

theorem orderly_newDecoded (hr : r.Bounded bound) (graph : Handle)
    (kinds : Option (Algorithm × ValueType × ValueType)) :
    Orderly (Registry.Bounded bound) (fun h => h.toRaw ≠ 0) False (newDecoded graph kinds) r := by
  cases kinds with
  | none => exact orderly_refuse hr _
  | some kinds => exact Registry.orderly_newSolver hr _ _ _ _

/-- A call leaves graphs with at most one node or arc more, and only runs may use up their fuel. -/
theorem orderly_underlying (hr : r.Bounded bound) (hbound : StaticDigraph.countLimit ≤ bound)
    (fuel : Nat) (call : Call) :
    Orderly (Registry.Bounded (bound + 1)) call.operation.shape.Returns (call.operation = .run)
      (call.underlying fuel) r := by
  have hr' := hr.mono (Nat.le_succ bound)
  have hbound' := Nat.le_succ_of_le hbound
  obtain ⟨op, arguments⟩ := call
  -- only the two operations that let a graph grow need the larger bound
  cases op with
  | deleteObject => exact (Registry.orderly_deleteObject hr' _).weaken False.elim
  | destruct destructor => exact (Registry.orderly_destruct hr' _ _).weaken False.elim
  | newListDigraph => exact (Registry.orderly_newListDigraph hr').weaken False.elim
  | addNode => exact (Registry.orderly_addNode hr _).weaken False.elim
  | addArc => exact (Registry.orderly_addArc hr _ _ _).weaken False.elim
  | numberOf => exact (orderly_ofQuery hr' _).weaken False.elim
  | newStaticDigraph => exact (Registry.orderly_newStaticDigraph hr').weaken False.elim
  | build => exact (Registry.orderly_buildStatic hr' hbound' _ _ _).weaken False.elim
  | newPairList => exact (Registry.orderly_newPairList hr').weaken False.elim
  | pushPair => exact (Registry.orderly_pushPair hr' _ _ _).weaken False.elim
  | newMap family => exact (Registry.orderly_newMap hr' _ _ _).weaken False.elim
  | mapGet family => exact (orderly_ofQuery hr' _).weaken False.elim
  | mapSet family => exact (Registry.orderly_mapSet hr' _ _ _ _ _).weaken False.elim
  | newSolver family => exact (orderly_newDecoded hr' _ _).weaken False.elim
  | attach role => exact (Registry.orderly_attach hr' _ _ _).weaken False.elim
  | run => exact (Registry.orderly_run hr' fuel _).weaken fun _ => rfl
  | flow family => exact (orderly_ofQuery hr' _).weaken False.elim

end Orderly

end NetworkFlow.Flat
