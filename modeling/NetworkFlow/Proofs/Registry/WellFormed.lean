import NetworkFlow.Proofs.HandleTable.Slots
import NetworkFlow.Proofs.Registry.Requests

/-!
# What never changes under a handle

A solver is given maps by handles, which are looked at again only when it is run. By then the objects
may have been destroyed and their slots filled again. What was checked when a map was given still holds
for what is under the handle then, if there is anything: a handle is handed out once, and what was
checked is part of what never changes about an object (`Object.signature`). So it is enough to know of
every handle that a solver or a map holds that it was handed out (`WellFormed`).

Every change of a registry that destroys nothing keeps this, whatever the slots were used for before
(`Grows`).

## Main results

* `WellFormed.insert`, `WellFormed.replace`, `WellFormed.remove`: what a change of the table keeps.
* `signature_of_graph`, `signature_of_map`: what is looked up.
* `Edit.grows`, `grows_run`: what is kept where nothing is destroyed.
-/

namespace NetworkFlow

/-- What never changes about an object. -/
inductive Signature where
  | graph (id : GraphId)
  | pairList
  | key (kind : KeyKind)
  | map (kind : KeyKind) (owner : Handle) (type : ValueType) (graph : GraphId)
  | solver (graph : Handle) (algorithm : Algorithm) (flowType costType : ValueType)

/-- The signature of an object. -/
def Object.signature : Object → Signature
  | listDigraph g => .graph g.id
  | staticDigraph g => .graph g.id
  | pairList _ => .pairList
  | @identity kind _ => .key kind
  | @map kind owner values => .map kind owner values.type values.map.graph
  | solver record => .solver record.graph record.algorithm record.flowType record.costType

/-- The map that a solver was given for a role. -/
def SolverRecord.attached (record : SolverRecord) : MapRole → Option Handle
  | .cost => record.cost
  | .lower => record.lower
  | .upper => record.upper
  | .supply => record.supply

namespace Registry

/-- What never changes about what is under a handle. -/
def signature? (r : Registry) (h : Handle) : Option Signature :=
  (r.objects.get? h).map Object.signature

/-- Maps and solvers hold handles that were handed out, and what is alive under them is what was
checked. -/
structure WellFormed (r : Registry) : Prop where
  sound : r.objects.Sound
  /-- The graph that a map was made for has the identity that the map has. -/
  map : ∀ h kind owner type id, r.signature? h = some (.map kind owner type id) →
    r.objects.Issued owner ∧ ∀ id', r.signature? owner = some (.graph id') → id' = id
  /-- Flows are integers. -/
  flow : ∀ h record, r.solver h = .ok record → record.flowType ≠ .double
  /-- The maps of a solver are maps of its graph and have its types. -/
  attached : ∀ h record role m, r.solver h = .ok record → record.attached role = some m →
    r.objects.Issued m ∧ ∀ owner type id,
      r.signature? m = some (.map role.keyKind owner type id) →
        owner = record.graph ∧ type = record.expected role

/-- Handles stay handed out, and what is alive under one of them is what was there. -/
structure Follows (r r' : Registry) : Prop where
  issued : ∀ h, r.objects.Issued h → r'.objects.Issued h
  signature : ∀ h s, r.objects.Issued h → r'.signature? h = some s → r.signature? h = some s

/-- No slot is freed: one that is filled is as old as it was, or new. -/
def SameAge (r r' : Registry) : Prop :=
  ∀ (index : Nat) slot, r'.objects.slots[index]? = some slot → slot.generation.toNat = 1 ∨
    ∃ old, r.objects.slots[index]? = some old ∧ old.generation = slot.generation

/-- What a change keeps that destroys nothing. -/
structure Succeeds (r r' : Registry) : Prop extends Follows r r' where
  wellFormed : r'.WellFormed
  age : SameAge r r'

/-- What a change keeps of a registry that is well-formed. -/
def Grows (r r' : Registry) : Prop := r.WellFormed → Succeeds r r'

variable {r r' : Registry} {h : Handle} {object old : Object} {record : SolverRecord}

theorem Follows.refl (r : Registry) : Follows r r := ⟨fun _ h => h, fun _ _ _ h => h⟩

theorem Follows.trans {r'' : Registry} (h : Follows r r') (h' : Follows r' r'') : Follows r r'' :=
  ⟨fun x hx => h'.issued x (h.issued x hx),
    fun x s hx hs => h.signature x s hx (h'.signature x s (h.issued x hx) hs)⟩

instance : Std.Refl Grows :=
  ⟨fun r hr => ⟨.refl r, hr, fun _ slot hslot => .inr ⟨slot, hslot, rfl⟩⟩⟩

instance : IsTrans Registry Grows := by
  refine ⟨fun r r' r'' h h' hr => ?_⟩
  obtain ⟨hfollows, hr', hage⟩ := h hr
  obtain ⟨hfollows', hr'', hage'⟩ := h' hr'
  refine ⟨hfollows.trans hfollows', hr'', fun index slot hslot => ?_⟩
  rcases hage' index slot hslot with hnew | ⟨old, hold, heq⟩
  · exact .inl hnew
  · rw [← heq]
    exact hage index old hold

theorem signature?_of_get? (hget : r.objects.get? h = some object) :
    r.signature? h = some object.signature := by
  rw [signature?, hget, Option.map_some]

theorem get?_of_signature? {s : Signature} (hs : r.signature? h = some s) :
    ∃ object, r.objects.get? h = some object ∧ object.signature = s :=
  Option.map_eq_some_iff.mp hs

/-- What is alive was handed out. -/
theorem WellFormed.issued {s : Signature} (hr : r.WellFormed) (hs : r.signature? h = some s) :
    r.objects.Issued h := by
  obtain ⟨object, hget, -⟩ := get?_of_signature? hs
  exact hr.sound.issued_of_get? hget

theorem wellFormed_empty : empty.WellFormed where
  sound := HandleTable.sound_empty
  map h kind owner type id hs := by cases hs
  flow h record hrecord := by cases hrecord
  attached h record role m hrecord := by cases hrecord

/-! ## Changes of the table -/

/-- An object that may be taken in: the graph of a map is alive, and a solver has no maps. -/
structure Admits (r : Registry) (object : Object) : Prop where
  map : ∀ kind owner type id, object.signature = .map kind owner type id →
    r.signature? owner = some (.graph id)
  solver : ∀ record, object = .solver record →
    record.flowType ≠ .double ∧ ∀ role, record.attached role = none

/-- An object that may replace another one: what never changes is the same, and a map that a solver
did not have is alive and a map of its graph and its type. -/
structure Replaces (r : Registry) (old object : Object) : Prop where
  signature : object.signature = old.signature
  attached : ∀ record role m, object = .solver record → record.attached role = some m →
    (∃ before, old = .solver before ∧ before.attached role = some m) ∨
      ∃ id, r.signature? m = some (.map role.keyKind record.graph (record.expected role) id)

theorem WellFormed.insert (hr : r.WellFormed) (hobject : r.Admits object) :
    Succeeds r { r with objects := (r.objects.insert object).1 } := by
  have hissued : ∀ h, r.objects.Issued h → (r.objects.insert object).1.Issued h :=
    fun h hh => hr.sound.issued_insert hh object
  have hsame : ∀ h, r.objects.Issued h → ({ r with objects := (r.objects.insert object).1 } :
      Registry).signature? h = r.signature? h := fun h hh =>
    congrArg _ (HandleTable.get?_insert_of_issued hr.sound hh object)
  refine ⟨⟨hissued, fun h s hh hs => by rwa [hsame h hh] at hs⟩, ?wellFormed, ?age⟩
  case wellFormed =>
    constructor
    case sound => exact hr.sound.insert object
    case map =>
      intro h kind owner type id hs
      obtain ⟨found, hget, hsignature⟩ := get?_of_signature? hs
      rcases HandleTable.get?_insert hget with rfl | hget
      · have howner := hobject.map kind owner type id hsignature
        have hh := hr.issued howner
        refine ⟨hissued owner hh, fun id' hid => ?_⟩
        rw [hsame owner hh, howner] at hid
        cases hid
        rfl
      · obtain ⟨hh, hid⟩ := hr.map h kind owner type id (hsignature ▸ signature?_of_get? hget)
        exact ⟨hissued owner hh, fun id' hid' => hid id' (by rwa [hsame owner hh] at hid')⟩
    case flow =>
      intro h record hrecord
      rcases HandleTable.get?_insert (solver_eq_ok.mp hrecord) with rfl | hget
      · exact (hobject.solver record rfl).1
      · exact hr.flow h record (solver_eq_ok.mpr hget)
    case attached =>
      intro h record role m hrecord hm
      rcases HandleTable.get?_insert (solver_eq_ok.mp hrecord) with rfl | hget
      · rw [(hobject.solver record rfl).2 role] at hm
        cases hm
      · obtain ⟨hh, hchecked⟩ := hr.attached h record role m (solver_eq_ok.mpr hget) hm
        exact ⟨hissued m hh, fun owner type id hs => hchecked owner type id (by rwa [hsame m hh] at hs)⟩
  case age =>
    intro index slot hslot
    exact (hr.sound.generation_insert hslot).imp (fun h => congrArg UInt32.toNat h.2) id

theorem signature_solver {h : Handle} (hrecord : r.solver h = .ok record) :
    r.signature? h =
      some (.solver record.graph record.algorithm record.flowType record.costType) :=
  signature?_of_get? (solver_eq_ok.mp hrecord)

theorem solver_of_signature? {graph : Handle} {algorithm : Algorithm} {flowType costType : ValueType}
    (hs : r.signature? h = some (.solver graph algorithm flowType costType)) :
    ∃ record, r.solver h = .ok record ∧ record.graph = graph ∧ record.algorithm = algorithm ∧
      record.flowType = flowType ∧ record.costType = costType := by
  obtain ⟨object, hget, hsignature⟩ := get?_of_signature? hs
  cases object <;> cases hsignature
  exact ⟨_, solver_eq_ok.mpr hget, rfl, rfl, rfl, rfl⟩

theorem expected_eq {record before : SolverRecord} (hflow : record.flowType = before.flowType)
    (hcost : record.costType = before.costType) (role : MapRole) :
    record.expected role = before.expected role := by
  cases role <;> assumption

theorem WellFormed.replace (hr : r.WellFormed) (hold : r.objects.get? h = some old)
    (hobject : r.Replaces old object) :
    Succeeds r { r with objects := r.objects.set h object } := by
  have hget : ∀ x, (r.objects.set h object).get? x = if x = h then some object
      else r.objects.get? x := by
    intro x
    have hcontains := HandleTable.contains_iff.mpr ⟨old, hold⟩
    simp [HandleTable.get?_set, hcontains]
  have hsame : ∀ x, ({ r with objects := r.objects.set h object } : Registry).signature? x =
      r.signature? x := by
    intro x
    show ((r.objects.set h object).get? x).map Object.signature = _
    rw [hget]
    split_ifs with heq
    · rw [heq, signature?_of_get? hold, Option.map_some, hobject.signature]
    · rfl
  have hissued : ∀ x, (r.objects.set h object).Issued x ↔ r.objects.Issued x :=
    fun x => HandleTable.issued_set_iff
  refine ⟨⟨fun x => (hissued x).mpr, fun x s _ hs => by rwa [hsame] at hs⟩, ?wellFormed, ?age⟩
  case wellFormed =>
    constructor
    case sound => exact hr.sound.set h object
    case map =>
      intro x kind owner type id hs
      rw [hsame] at hs
      obtain ⟨hh, hid⟩ := hr.map x kind owner type id hs
      exact ⟨(hissued owner).mpr hh, fun id' hs' => hid id' (by rwa [hsame] at hs')⟩
    case flow =>
      intro x record hrecord
      have hsignature := (hsame x).symm.trans (signature_solver hrecord)
      obtain ⟨before, hbefore, -, -, hflow, -⟩ := solver_of_signature? hsignature
      rw [← hflow]
      exact hr.flow x before hbefore
    case attached =>
      intro x record role m hrecord hm
      replace hrecord := (hget x).symm.trans (solver_eq_ok.mp hrecord)
      rw [hissued]
      simp only [hsame]
      split_ifs at hrecord with heq
      · cases hrecord
        rcases hobject.attached record role m rfl hm with ⟨before, rfl, hbefore⟩ | ⟨id, hs⟩
        · -- The solver had the map before, and expects of it what it did.
          obtain ⟨hh, hchecked⟩ := hr.attached h before role m (solver_eq_ok.mpr hold) hbefore
          refine ⟨hh, fun owner type id hs => ?_⟩
          obtain ⟨howner, htype⟩ := hchecked owner type id hs
          have hsignature := hobject.signature
          simp only [Object.signature, Signature.solver.injEq] at hsignature
          obtain ⟨hgraph, -, hflow, hcost⟩ := hsignature
          exact ⟨howner.trans hgraph.symm, htype.trans (expected_eq hflow hcost role).symm⟩
        · -- The map is a new one, which is alive and was checked.
          refine ⟨hr.issued hs, fun owner type id' hs' => ?_⟩
          rw [hs] at hs'
          cases hs'
          exact ⟨rfl, rfl⟩
      · exact hr.attached x record role m (solver_eq_ok.mpr hrecord) hm
  case age =>
    intro index slot hslot
    exact .inr (HandleTable.generation_set hold hslot)

/-- Objects that are left are what they were, as long as no generation runs over. -/
theorem WellFormed.remove {objects : HandleTable Object} (hr : r.WellFormed)
    (hremove : r.objects.remove h = .ok (objects, old))
    (hlast : h.generation.toNat + 1 < 4294967296) :
    Follows r { r with objects } ∧ ({ r with objects } : Registry).WellFormed := by
  have hissued : ∀ x, objects.Issued x ↔ r.objects.Issued x :=
    fun x => HandleTable.issued_remove_iff hremove hlast
  have hget : ∀ x found, objects.get? x = some found → r.objects.get? x = some found := by
    intro x found hfound
    rw [HandleTable.get?_remove hremove] at hfound
    split_ifs at hfound
    exact hfound
  have hsame : ∀ x s, ({ r with objects } : Registry).signature? x = some s →
      r.signature? x = some s := by
    intro x s hs
    obtain ⟨found, hfound, rfl⟩ := get?_of_signature? hs
    exact signature?_of_get? (hget x found hfound)
  refine ⟨⟨fun x => (hissued x).mpr, fun x s _ => hsame x s⟩, ?_⟩
  constructor
  case sound => exact hr.sound.remove hremove
  case map =>
    intro x kind owner type id hs
    obtain ⟨hh, hid⟩ := hr.map x kind owner type id (hsame x _ hs)
    exact ⟨(hissued owner).mpr hh, fun id' hs' => hid id' (hsame owner _ hs')⟩
  case flow =>
    intro x record hrecord
    exact hr.flow x record (solver_eq_ok.mpr (hget x _ (solver_eq_ok.mp hrecord)))
  case attached =>
    intro x record role m hrecord hm
    obtain ⟨hh, hchecked⟩ :=
      hr.attached x record role m (solver_eq_ok.mpr (hget x _ (solver_eq_ok.mp hrecord))) hm
    exact ⟨(hissued m).mpr hh, fun owner type id hs => hchecked owner type id (hsame m _ hs)⟩

/-! ## What is looked up -/

theorem eq_listDigraph {g : ListDigraph} (hg : object.listDigraph? = .ok g) :
    object = .listDigraph g := by
  cases object <;> cases hg
  rfl

theorem eq_staticDigraph {g : StaticDigraph} (hg : object.staticDigraph? = .ok g) :
    object = .staticDigraph g := by
  cases object <;> cases hg
  rfl

theorem eq_pairList {pairs : Array (Int × Int)} (hpairs : object.pairList? = .ok pairs) :
    object = .pairList pairs := by
  cases object <;> cases hpairs
  rfl

theorem eq_map {kind : KeyKind} {owner : Handle} {values : AnyMap kind}
    (hmap : object.map? kind = .ok (owner, values)) : object = .map owner values := by
  cases object with
  | @map k graph found =>
      simp only [Object.map?] at hmap
      split at hmap
      · rename_i hkind
        subst hkind
        cases hmap
        rfl
      · cases hmap
  | _ => cases hmap

/-- A map that is read at a type is of the type. -/
theorem eq_of_ofType {kind : KeyKind} {values : AnyMap kind} {t : ValueType}
    {typed : KeyedMap kind t.Value} (h : values.ofType t = .ok typed) : values = ⟨t, typed⟩ := by
  obtain ⟨type, map⟩ := values
  unfold AnyMap.ofType at h
  split at h
  · rename_i htype
    cases htype
    cases h
    rfl
  · cases h

theorem signature_of_graph {g : Digraph} (hg : r.graph h = .ok g) :
    r.signature? h = some (.graph g.id) := by
  obtain ⟨object, hobject, hg⟩ := bind_eq_ok.mp hg
  rw [signature?_of_get? (HandleTable.get_eq_ok.mp hobject)]
  cases object <;> cases hg <;> rfl

theorem signature_of_map {kind : KeyKind} {owner : Handle} {values : AnyMap kind}
    (hmap : r.object h >>= (·.map? kind) = .ok (owner, values)) :
    r.signature? h = some (.map kind owner values.type values.map.graph) := by
  obtain ⟨object, hobject, hmap⟩ := bind_eq_ok.mp hmap
  rw [signature?_of_get? (HandleTable.get_eq_ok.mp hobject), eq_map hmap]
  rfl

/-! ## What requests keep that destroy nothing -/

section Grows

open NetworkFlow.Action

theorem grows_insert (hobject : r.Admits object) : Grows r ((insert object).run r).2 :=
  fun hr => hr.insert hobject

theorem grows_replace (hold : r.object h = .ok old) (hobject : r.Replaces old object) :
    Grows r ((replace h object).run r).2 :=
  fun hr => hr.replace (HandleTable.get_eq_ok.mp hold) hobject

theorem grows_freshGraph (r : Registry) : Grows r (freshGraph.run r).2 := fun hr =>
  ⟨⟨fun _ hh => hh, fun _ _ _ hs => hs⟩, ⟨hr.sound, hr.map, hr.flow, hr.attached⟩,
    fun _ slot hslot => .inr ⟨slot, hslot, rfl⟩⟩

theorem admits_listDigraph (r : Registry) (g : ListDigraph) : r.Admits (.listDigraph g) :=
  ⟨fun _ _ _ _ h => (by cases h), fun _ h => by cases h⟩

theorem admits_staticDigraph (r : Registry) (g : StaticDigraph) : r.Admits (.staticDigraph g) :=
  ⟨fun _ _ _ _ h => (by cases h), fun _ h => by cases h⟩

theorem admits_pairList (r : Registry) (pairs : Array (Int × Int)) : r.Admits (.pairList pairs) :=
  ⟨fun _ _ _ _ h => (by cases h), fun _ h => by cases h⟩

theorem admits_identity (r : Registry) {kind : KeyKind} (key : Key kind) : r.Admits (.identity key) :=
  ⟨fun _ _ _ _ h => (by cases h), fun _ h => by cases h⟩

theorem grows_addNode (r : Registry) (graph : Handle) : Grows r ((addNode graph).run r).2 := by
  unfold addNode
  rw [run_get_bind]
  refine respects_lift_bind fun object hobject => respects_lift_bind fun g hg => ?_
  rw [eq_listDigraph hg] at hobject
  have hreplaces : r.Replaces (.listDigraph g) (.listDigraph g.addNode.1) :=
    ⟨rfl, fun _ _ _ h => by cases h⟩
  exact IsTrans.trans _ _ _ (grows_replace hobject hreplaces)
    (grows_insert (admits_identity _ g.addNode.2))

theorem grows_addArc (r : Registry) (graph : Handle) (tail head : KeyRef) :
    Grows r ((addArc graph tail head).run r).2 := by
  unfold addArc
  rw [run_get_bind]
  refine respects_lift_bind fun tail _ => respects_lift_bind fun head _ => ?_
  refine respects_lift_bind fun object hobject => respects_lift_bind fun g hg => ?_
  refine respects_logged_bind fun grown hgrown => ?_
  rw [eq_listDigraph hg] at hobject
  obtain ⟨g', arc⟩ := grown
  have hid : g'.id = g.id := by
    obtain ⟨_, -, hgrown⟩ := Logged.outcome_bind_eq_ok.mp hgrown
    obtain ⟨_, -, hgrown⟩ := Logged.outcome_bind_eq_ok.mp hgrown
    obtain ⟨_, -, hgrown⟩ := Logged.outcome_bind_eq_ok.mp hgrown
    cases hgrown
    rfl
  have hreplaces : r.Replaces (.listDigraph g) (.listDigraph g') :=
    ⟨congrArg Signature.graph hid, fun _ _ _ h => by cases h⟩
  exact IsTrans.trans _ _ _ (grows_replace hobject hreplaces) (grows_insert (admits_identity _ arc))

theorem grows_pushPair (r : Registry) (list : Handle) (first second : Int) :
    Grows r ((pushPair list first second).run r).2 := by
  unfold pushPair
  rw [run_get_bind]
  refine respects_lift_bind fun object hobject => respects_lift_bind fun pairs hpairs => ?_
  rw [eq_pairList hpairs] at hobject
  exact grows_replace hobject ⟨rfl, fun _ _ _ h => by cases h⟩

theorem grows_buildStatic (r : Registry) (graph : Handle) (nodes : Int) (pairs : Handle) :
    Grows r ((buildStatic graph nodes pairs).run r).2 := by
  unfold buildStatic
  rw [run_get_bind]
  refine respects_lift_bind fun _ _ => respects_lift_bind fun pairs _ => ?_
  simp only
  split
  · exact respects_refused r
  · refine respects_lift_bind fun object hobject => respects_lift_bind fun g hg => ?_
    refine respects_logged_bind fun built hbuilt => ?_
    rw [eq_staticDigraph hg] at hobject
    have hid : built.id = g.id := by
      unfold StaticDigraph.build at hbuilt
      split_ifs at hbuilt <;> cases hbuilt
      rfl
    exact grows_replace hobject ⟨congrArg Signature.graph hid, fun _ _ _ h => by cases h⟩

theorem grows_newMap (r : Registry) (kind : KeyKind) (graph : Handle) (type : ValueType) :
    Grows r ((newMap kind graph type).run r).2 := by
  unfold newMap
  rw [run_get_bind]
  refine respects_lift_bind fun g hg => grows_insert ⟨fun _ _ _ _ h => ?_, fun _ h => by cases h⟩
  cases h
  exact signature_of_graph hg

theorem grows_mapSet (r : Registry) (kind : KeyKind) (type : ValueType) (map : Handle) (key : KeyRef)
    (value : type.Value) : Grows r ((mapSet kind type map key value).run r).2 := by
  unfold mapSet
  rw [run_get_bind]
  refine respects_lift_bind fun object hobject => respects_lift_bind fun found hfound => ?_
  refine respects_lift_bind fun key _ => respects_lift_bind fun typed htyped => ?_
  refine respects_lift_bind fun changed hchanged => ?_
  obtain ⟨owner, values⟩ := found
  rw [eq_map hfound] at hobject
  obtain rfl := eq_of_ofType htyped
  have hid : changed.graph = typed.graph := by
    unfold KeyedMap.set at hchanged
    split_ifs at hchanged
    cases hchanged
    rfl
  refine grows_replace hobject ⟨?_, fun _ _ _ h => by cases h⟩
  show Signature.map kind owner type changed.graph = _
  rw [hid]
  rfl

theorem grows_newSolver (r : Registry) (graph : Handle) (algorithm : Algorithm)
    (flowType costType : ValueType) :
    Grows r ((newSolver graph algorithm flowType costType).run r).2 := by
  unfold newSolver
  rw [run_get_bind]
  refine respects_lift_bind fun g _ => ?_
  split
  · exact respects_refused r
  · rename_i hflow
    refine grows_insert ⟨fun _ _ _ _ h => (by cases h), fun record h => ?_⟩
    cases h
    exact ⟨hflow, fun role => by cases role <;> rfl⟩

theorem signature_attach (record : SolverRecord) (role : MapRole) (map : Handle) :
    (Object.solver (record.attach role map)).signature = (Object.solver record).signature := by
  cases role <;> rfl

theorem attached_attach (record : SolverRecord) (role role' : MapRole) (map : Handle) :
    (record.attach role map).attached role' =
      if role' = role then some map else record.attached role' := by
  cases role <;> cases role' <;> rfl

theorem grows_attach (r : Registry) (solver : Handle) (role : MapRole) (map : Handle) :
    Grows r ((attach solver role map).run r).2 := by
  unfold attach
  rw [run_get_bind]
  refine respects_lift_bind fun record hrecord => ?_
  refine respects_lift_bind fun object hobject => respects_lift_bind fun found hfound => ?_
  obtain ⟨owner, values⟩ := found
  simp only
  split
  · exact respects_refused r
  · split
    · exact respects_refused r
    · rename_i howner htype
      rw [Decidable.not_not] at howner htype
      have hmap : r.object map >>= (·.map? role.keyKind) = .ok (owner, values) :=
        bind_eq_ok.mpr ⟨object, hobject, hfound⟩
      have hsignature : r.signature? map = some (.map role.keyKind record.graph
          (record.expected role) values.map.graph) := by
        simp [signature_of_map hmap, howner, htype]
      refine grows_replace (HandleTable.get_eq_ok.mpr (solver_eq_ok.mp hrecord))
        ⟨signature_attach record role map, fun record' role' m h hm => ?_⟩
      cases h
      rw [attached_attach] at hm
      split_ifs at hm with heq
      · cases hm
        refine .inr ⟨values.map.graph, ?_⟩
        rw [hsignature, heq]
        cases role <;> rfl
      · exact .inl ⟨record, rfl, hm⟩

theorem replaces_result (r : Registry) (record : SolverRecord) (result : Option RunResult) :
    r.Replaces (.solver record) (.solver { record with result }) := by
  refine ⟨rfl, fun record' role m h hm => .inl ⟨record, rfl, ?_⟩⟩
  cases h
  cases role <;> exact hm

theorem grows_discard (r : Registry) (solver : Handle) : Grows r (r.discard solver) := by
  unfold discard
  cases hsolver : r.solver solver with
  | error cause => exact Std.Refl.refl r
  | ok record =>
      exact fun hr => hr.replace (solver_eq_ok.mp hsolver) (replaces_result r record none)

theorem grows_complete (r : Registry) (done : CompletedRun) :
    Grows r ((complete done).run r).2 := by
  rw [run_complete]
  cases hsolver : r.solver done.solver with
  | error cause => exact Std.Refl.refl r
  | ok record =>
      cases done.result with
      | error fault => exact Std.Refl.refl r
      | ok result =>
          simp only
          split
          · exact fun hr => hr.replace (solver_eq_ok.mp hsolver) (replaces_result r record result)
          · exact Std.Refl.refl r

theorem grows_run (r : Registry) (solver : Handle) (fuel : Nat) :
    Grows r ((run fuel solver).run r).2 := by
  rw [run_run]
  cases r.copied solver with
  | error cause => exact grows_discard r solver
  | ok job => exact IsTrans.trans _ _ _ (grows_discard r solver) (grows_complete _ _)

/-- The handle under which an edit destroys an object. -/
def Edit.target : Edit → Option Handle
  | destruct h _ | deleteObject h => some h
  | _ => none

/-- An edit that destroys nothing. -/
theorem Edit.grows {edit : Edit} (htarget : edit.target = none) (r : Registry) :
    Grows r (edit.apply r) := by
  cases edit with
  | destruct h kind => cases htarget
  | deleteObject h => cases htarget
  | newListDigraph =>
      exact IsTrans.trans _ _ _ (grows_freshGraph r) (grows_insert (admits_listDigraph _ _))
  | newStaticDigraph =>
      exact IsTrans.trans _ _ _ (grows_freshGraph r) (grows_insert (admits_staticDigraph _ _))
  | addNode graph => exact grows_addNode r graph
  | addArc graph tail head => exact grows_addArc r graph tail head
  | newPairList => exact grows_insert (admits_pairList r _)
  | pushPair list first second => exact grows_pushPair r list first second
  | buildStatic graph nodes pairs => exact grows_buildStatic r graph nodes pairs
  | newMap kind graph type => exact grows_newMap r kind graph type
  | mapSet kind type map key value => exact grows_mapSet r kind type map key value
  | newSolver graph algorithm flowType costType =>
      exact grows_newSolver r graph algorithm flowType costType
  | attach solver role map => exact grows_attach r solver role map

end Grows

end Registry

end NetworkFlow
