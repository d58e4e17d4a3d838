import NetworkFlow.Proofs.Graph.HandedOut
import NetworkFlow.Proofs.Orderly
import NetworkFlow.Proofs.Registry.WellFormed

/-!
# What every call of a registry keeps

Whatever objects there are and however their slots were used before, the table of a registry is sound,
so no handle that it answers is the number zero. And graphs are of limited size: a graph that grows
has at most one more node or arc after a call, and a graph that is built has no more than a limit
(`Bounded`). All calls are orderly on such registries, and all but the runs of solvers come to an end.

## Main results

* `Bounded.insert`, `Bounded.set`, `Bounded.remove`: what the changes of the table keep.
* `orderly_insert`: an object is taken in under a handle that is not the number zero.
* one lemma for each call, such as `orderly_addArc`: the call is orderly.
-/

namespace NetworkFlow

/-- A handle of a later generation than zero is not written as zero. -/
theorem Handle.toRaw_ne_zero {h : Handle} (hpos : 0 < h.generation.toNat) : h.toRaw ≠ 0 := by
  intro hzero
  have hraw := h.toNat_toRaw
  rw [hzero] at hraw
  change 0 = _ at hraw
  omega

/-- A handle that an insertion answers is of a later generation than zero. -/
theorem HandleTable.Sound.generation_insert_pos {α : Type} {t : HandleTable α} (hsound : t.Sound)
    (value : α) : 0 < (t.insert value).2.generation.toNat := by
  rcases hsound.insert_cases value with ⟨-, heq⟩ | ⟨index, generation, next, -, hslot, heq⟩
  · rw [heq]
    exact Nat.one_pos
  · rw [heq]
    exact hsound.positive index.toNat _ hslot

theorem ListDigraph.addArc_orderly (g : ListDigraph) (tail head : Node) :
    (g.addArc tail head).Orderly False := by
  refine (Logged.orderly_ofExcept _).bind fun t => (Logged.orderly_ofExcept _).bind fun u => ?_
  exact (Logged.orderly_report (.inr rfl)).bind fun _ => Logged.orderly_pure _

theorem StaticDigraph.build_orderly (g : StaticDigraph) (nodes : Nat) (pairs : Array Ends) :
    (g.build nodes pairs).Orderly False := by
  unfold build
  split
  · exact Logged.orderly_refuse _
  · split
    · exact Logged.orderly_refuse _
    · split
      · split
        · exact Logged.orderly_refuse _
        · exact (Logged.orderly_report (.inl rfl)).bind fun _ => Logged.orderly_pure _
      · exact Logged.orderly_refuse _

/-- If the object is a graph, it has no more nodes and no more arcs than `bound`. -/
def Object.Small (bound : Nat) (object : Object) : Prop :=
  ∀ g, object.graph? = .ok g → ∀ kind, g.count kind ≤ bound

namespace Registry

open NetworkFlow.Action

/-- The table is sound, and the graphs are small. -/
structure Bounded (bound : Nat) (r : Registry) : Prop where
  sound : r.objects.Sound
  small : ∀ h object, r.objects.get? h = some object → object.Small bound

variable {bound : Nat} {r : Registry} {h : Handle} {object : Object}

theorem bounded_empty (bound : Nat) : empty.Bounded bound :=
  ⟨HandleTable.sound_empty, fun h object hget => by cases hget⟩

theorem Bounded.mono {bound' : Nat} (hr : r.Bounded bound) (hle : bound ≤ bound') :
    r.Bounded bound' :=
  ⟨hr.sound, fun h object hget g hg kind => Nat.le_trans (hr.small h object hget g hg kind) hle⟩

theorem Bounded.insert (hr : r.Bounded bound) (hobject : object.Small bound) :
    ({ r with objects := (r.objects.insert object).1 } : Registry).Bounded bound where
  sound := hr.sound.insert object
  small h x hget := by
    rcases HandleTable.get?_insert hget with rfl | hold
    · exact hobject
    · exact hr.small h x hold

theorem Bounded.set (hr : r.Bounded bound) (hobject : object.Small bound) (h : Handle) :
    ({ r with objects := r.objects.set h object } : Registry).Bounded bound where
  sound := hr.sound.set h object
  small h' x hget := by
    rw [HandleTable.get?_set] at hget
    split at hget
    · cases hget
      exact hobject
    · exact hr.small h' x hget

theorem Bounded.remove {objects : HandleTable Object} (hr : r.Bounded bound)
    (hremove : r.objects.remove h = .ok (objects, object)) :
    ({ r with objects } : Registry).Bounded bound where
  sound := hr.sound.remove hremove
  small h' x hget := by
    rw [HandleTable.get?_remove hremove] at hget
    split at hget
    · cases hget
    · exact hr.small h' x hget

/-- A graph that is found is small. -/
theorem Bounded.count_le (hr : r.Bounded bound) {g : Digraph} (hg : r.graph h = .ok g)
    (kind : KeyKind) : g.count kind ≤ bound := by
  obtain ⟨object, hobject, hg⟩ := bind_eq_ok.mp hg
  exact hr.small h object (HandleTable.get_eq_ok.mp hobject) g hg kind

theorem Bounded.small_of_object (hr : r.Bounded bound) (hobject : r.object h = .ok object) :
    object.Small bound := hr.small h object (HandleTable.get_eq_ok.mp hobject)

/-! ## Parts of calls -/

theorem orderly_insert (hr : r.Bounded bound) (hobject : object.Small bound) :
    Orderly (Bounded bound) (fun h => h.toRaw ≠ 0) False (insert object) r := by
  refine .of_get ?_
  dsimp only
  refine (orderly_set (hr.insert hobject)).bind fun _ r' hr' _ => ?_
  refine (orderly_report hr' (.inr rfl)).bind fun _ r'' hr'' _ => ?_
  exact orderly_pure hr'' (Handle.toRaw_ne_zero (hr.sound.generation_insert_pos object))

theorem orderly_replace (hr : r.Bounded bound) (hobject : object.Small bound) (h : Handle) :
    Orderly (Bounded bound) (fun _ => True) False (replace h object) r :=
  orderly_modify (hr.set hobject h)

theorem orderly_freshGraph (hr : r.Bounded bound) :
    Orderly (Bounded bound) (fun _ => True) False freshGraph r :=
  have hnext : Bounded bound { r with nextGraph := r.nextGraph.next } := ⟨hr.sound, hr.small⟩
  .of_get ((orderly_set hnext).bind fun _ _ hr' _ => orderly_pure hr' trivial)

/-- What is no graph is small. -/
theorem small_of_error {cause : Error} (h : object.graph? = .error cause) : object.Small bound := by
  intro g hg
  rw [h] at hg
  cases hg

theorem small_list {g : ListDigraph} (h : ∀ kind, g.count kind ≤ bound) :
    (Object.listDigraph g).Small bound := by
  intro g' hg'
  cases hg'
  exact h

theorem small_static {g : StaticDigraph} (h : ∀ kind, g.count kind ≤ bound) :
    (Object.staticDigraph g).Small bound := by
  intro g' hg'
  cases hg'
  exact h

/-! ## Calls -/

theorem orderly_destruct (hr : r.Bounded bound) (h : Handle) (kind : ObjectKind) :
    Orderly (Bounded bound) (fun _ => True) False (destruct h kind) r := by
  refine .of_get (.look hr fun actual _ => ?_)
  dsimp only
  split
  · exact orderly_refused hr
  · refine .look hr fun left hremove => ?_
    obtain ⟨objects, removed⟩ := left
    refine (orderly_set (hr.remove hremove)).bind fun _ r' hr' _ => ?_
    exact orderly_report hr' (.inr rfl)

theorem orderly_deleteObject (hr : r.Bounded bound) (h : Handle) :
    Orderly (Bounded bound) (fun _ => True) False (deleteObject h) r := by
  refine .of_get (.look hr fun kind _ => ?_)
  split
  · exact orderly_destruct hr h .node
  · exact orderly_destruct hr h .arc
  · exact orderly_refuse hr _

theorem orderly_newListDigraph (hr : r.Bounded bound) :
    Orderly (Bounded bound) (fun h => h.toRaw ≠ 0) False newListDigraph r := by
  refine (orderly_freshGraph hr).bind fun id r' hr' _ => orderly_insert hr' (small_list fun kind => ?_)
  cases kind <;> exact Nat.zero_le _

theorem orderly_newStaticDigraph (hr : r.Bounded bound) :
    Orderly (Bounded bound) (fun h => h.toRaw ≠ 0) False newStaticDigraph r := by
  refine (orderly_freshGraph hr).bind fun id r' hr' _ => orderly_insert hr' (small_static fun kind => ?_)
  cases kind <;> exact Nat.zero_le _

/-- A call that lets a graph grow leaves graphs with at most one node or arc more. -/
theorem orderly_addNode (hr : r.Bounded bound) (graph : Handle) :
    Orderly (Bounded (bound + 1)) (fun h => h.toRaw ≠ 0) False (addNode graph) r := by
  have hr' := hr.mono (Nat.le_succ bound)
  refine .of_get (.look hr' fun object hobject => .look hr' fun g hg => ?_)
  have hsmall : ∀ kind, g.count kind ≤ bound :=
    hr.small_of_object hobject g.toDigraph (by rw [eq_listDigraph hg]; rfl)
  have hgrown : (Object.listDigraph g.addNode.1).Small (bound + 1) := by
    refine small_list fun kind => ?_
    cases kind with
    | node => exact Nat.succ_le_succ (hsmall .node)
    | arc => exact Nat.le_succ_of_le (hsmall .arc)
  exact (orderly_replace hr' hgrown graph).bind fun _ r'' hr'' _ =>
    orderly_insert hr'' (small_of_error rfl)

theorem orderly_addArc (hr : r.Bounded bound) (graph : Handle) (tail head : KeyRef) :
    Orderly (Bounded (bound + 1)) (fun h => h.toRaw ≠ 0) False (addArc graph tail head) r := by
  have hr' := hr.mono (Nat.le_succ bound)
  refine .of_get (.look hr' fun tail _ => .look hr' fun head _ => ?_)
  refine .look hr' fun object hobject => .look hr' fun g hg => ?_
  refine .logged hr' (g.addArc_orderly tail head) fun grown hgrown => ?_
  obtain ⟨g', arc⟩ := grown
  obtain ⟨t, u, rfl, -⟩ := ListDigraph.addArc_eq_ok hgrown
  have hsmall : ∀ kind, g.count kind ≤ bound :=
    hr.small_of_object hobject g.toDigraph (by rw [eq_listDigraph hg]; rfl)
  have hsmall' : (Object.listDigraph (g.addEnds t u)).Small (bound + 1) := by
    refine small_list fun kind => ?_
    cases kind with
    | node => exact Nat.le_succ_of_le (hsmall .node)
    | arc =>
        show (g.ends.push _).size ≤ _
        rw [Array.size_push]
        exact Nat.succ_le_succ (hsmall .arc)
  exact (orderly_replace hr' hsmall' graph).bind fun _ r'' hr'' _ =>
    orderly_insert hr'' (small_of_error rfl)

theorem orderly_newPairList (hr : r.Bounded bound) :
    Orderly (Bounded bound) (fun h => h.toRaw ≠ 0) False newPairList r :=
  orderly_insert hr (small_of_error rfl)

theorem orderly_pushPair (hr : r.Bounded bound) (list : Handle) (first second : Int) :
    Orderly (Bounded bound) (fun _ => True) False (pushPair list first second) r :=
  .of_get (.look hr fun _ _ => .look hr fun _ _ => orderly_replace hr (small_of_error rfl) list)

theorem orderly_buildStatic (hr : r.Bounded bound) (hbound : StaticDigraph.countLimit ≤ bound)
    (graph : Handle) (nodes : Int) (pairs : Handle) :
    Orderly (Bounded bound) (fun _ => True) False (buildStatic graph nodes pairs) r := by
  refine .of_get (.look hr fun object _ => .look hr fun pairs _ => ?_)
  dsimp only
  split
  · exact orderly_refused hr
  · refine .look hr fun object _ => .look hr fun g _ => ?_
    refine .logged hr (g.build_orderly _ _) fun g' hg' => ?_
    obtain ⟨-, hnodes, hsize, hbelow, rfl⟩ := StaticDigraph.build_eq_ok hg'
    refine orderly_replace hr (small_static fun kind => ?_) graph
    cases kind with
    | node => exact Nat.le_trans hnodes hbound
    | arc => exact Nat.le_trans hsize hbound

theorem orderly_newMap (hr : r.Bounded bound) (kind : KeyKind) (graph : Handle) (type : ValueType) :
    Orderly (Bounded bound) (fun h => h.toRaw ≠ 0) False (newMap kind graph type) r :=
  .of_get (.look hr fun _ _ => orderly_insert hr (small_of_error rfl))

theorem orderly_mapSet (hr : r.Bounded bound) (kind : KeyKind) (type : ValueType) (map : Handle)
    (key : KeyRef) (value : type.Value) :
    Orderly (Bounded bound) (fun _ => True) False (mapSet kind type map key value) r := by
  refine .of_get (.look hr fun object _ => .look hr fun found _ => ?_)
  refine .look hr fun key _ => .look hr fun typed _ => .look hr fun typed _ => ?_
  exact orderly_replace hr (small_of_error rfl) map

theorem orderly_newSolver (hr : r.Bounded bound) (graph : Handle) (algorithm : Algorithm)
    (flowType costType : ValueType) :
    Orderly (Bounded bound) (fun h => h.toRaw ≠ 0) False
      (newSolver graph algorithm flowType costType) r := by
  refine .of_get (.look hr fun _ _ => ?_)
  dsimp only
  split
  · exact orderly_refused hr
  · exact orderly_insert hr (small_of_error rfl)

theorem orderly_attach (hr : r.Bounded bound) (solver : Handle) (role : MapRole) (map : Handle) :
    Orderly (Bounded bound) (fun _ => True) False (attach solver role map) r := by
  refine .of_get (.look hr fun record _ => .look hr fun object _ => .look hr fun found _ => ?_)
  dsimp only
  split
  · exact orderly_refused hr
  · split
    · exact orderly_refused hr
    · exact orderly_replace hr (small_of_error rfl) solver

/-- A run may be interrupted, and then ends without an answer. -/
theorem orderly_run (hr : r.Bounded bound) (fuel : Nat) (solver : Handle) :
    Orderly (Bounded bound) (fun _ => True) True (run fuel solver) r := by
  have hsnapshot : Orderly (Bounded bound) (fun _ => True) True (snapshot solver) r := by
    refine .of_get (.look hr fun record _ => ?_)
    refine Orderly.bind (orderly_modify (hr.set (small_of_error rfl) solver)) fun _ r' hr' _ => ?_
    exact orderly_ofLogged hr' (Logged.orderly_ofExcept _) fun _ _ => trivial
  refine hsnapshot.bind fun job r' hr' _ => ?_
  have hexecute : (job.execute fuel).Orderly True :=
    ⟨(job.result_orderly fuel).quiet, fun _ _ => trivial⟩
  refine .logged hr' hexecute fun done _ => .of_get (.look hr' fun record _ => ?_)
  have hresult : Orderly (Bounded bound) (fun _ => True) True
      (ofLogged ⟨[], done.result⟩ : Action Registry RunResult) r' :=
    orderly_ofLogged hr' ⟨fun _ he => (List.not_mem_nil he).elim, fun _ _ => trivial⟩
      fun _ _ => trivial
  refine hresult.bind fun result r' hr' _ => ?_
  dsimp only
  split
  · refine Orderly.bind (orderly_modify (hr'.set (small_of_error rfl) done.solver)) fun _ _ hr' _ => ?_
    exact orderly_pure hr' trivial
  · refine (orderly_report hr' (.inl rfl)).bind fun _ _ hr' _ => ?_
    exact orderly_pure hr' trivial

end Registry

end NetworkFlow
